import V2I.Ota.Merge

/-!
# V2I.Ota.Merge.Deleted

What `rescan_delete_objects` leaves in the list of deleted objects. A directory can be taken from
the list before its parents are; then it goes to the deleted objects and is taken out again when
the parents are reached. `Rescan` says what holds in between, over the set of the directories that
were taken so far.
-/

namespace V2I.Ota.Source

open List

variable {s : Source} {nodes : List Node} {x : Node} {p : Bytes}

/-! ## lists -/

section Lists

variable (s : Source) (n : Bytes)

@[simp] theorem mem_dirList_removeUser : p ∈ (s.removeUser n).dirList ↔ p ∈ s.dirList ∧ p ≠ n := by
  simp [removeUser]

@[simp] theorem mem_fileList_removeUser :
    p ∈ (s.removeUser n).fileList ↔ p ∈ s.fileList ∧ p ≠ n := by
  simp [removeUser]

@[simp] theorem mem_delList_removeUser : p ∈ (s.removeUser n).delList ↔ p ∈ s.delList ∧ p ≠ n := by
  simp [removeUser]

@[simp] theorem mem_dirList_appendDel : p ∈ (s.appendDel n).dirList ↔ p ∈ s.dirList ∧ p ≠ n :=
  mem_dirList_removeUser s n

@[simp] theorem mem_fileList_appendDel : p ∈ (s.appendDel n).fileList ↔ p ∈ s.fileList ∧ p ≠ n :=
  mem_fileList_removeUser s n

@[simp] theorem mem_delList_appendDel : p ∈ (s.appendDel n).delList ↔ p ∈ s.delList ∨ p = n := by
  by_cases hp : p = n
  · simp [appendDel, hp]
  · simp [appendDel, removeUser, hp]

@[simp] theorem mem_delList_appendDir : p ∈ (s.appendDir n).delList ↔ p ∈ s.delList ∧ p ≠ n :=
  mem_delList_removeUser s n

@[simp] theorem mem_dirList_appendDir : p ∈ (s.appendDir n).dirList ↔ p ∈ s.dirList ∨ p = n := by
  by_cases hp : p = n
  · simp [appendDir, hp]
  · simp [appendDir, removeUser, hp]

/-- No node is in a list twice. -/
structure Once (s : Source) : Prop where
  dirs : s.dirList.Nodup
  files : s.fileList.Nodup
  dels : s.delList.Nodup

variable {s n}

theorem Once.removeUser (h : Once s) : Once (s.removeUser n) :=
  ⟨h.dirs.filter _, h.files.filter _, h.dels.filter _⟩

theorem Once.appendDel (h : Once s) : Once (s.appendDel n) :=
  ⟨h.dirs.filter _, h.files.filter _,
    (h.dels.filter _).append (nodup_singleton n) (by simp [disjoint_singleton])⟩

theorem Once.appendDir (h : Once s) : Once (s.appendDir n) :=
  ⟨(h.dirs.filter _).append (nodup_singleton n) (by simp [disjoint_singleton]),
    h.files.filter _, h.dels.filter _⟩

theorem Once.setType (h : Once s) (type : NodeType) : Once (s.setType n type) :=
  ⟨h.dirs, h.files, h.dels⟩

end Lists

/-! ## one directory -/

theorem deleteChild_does (s : Source) (c : Node) (p : Bytes) :
    ((deleteChild s c).types p = if p = c.name then .dirDeleted else s.types p) ∧
      (p ∈ (deleteChild s c).delList ↔ p ∈ s.delList ∧ p ≠ c.name) ∧
      (p ∈ (deleteChild s c).dirList ↔
        (p ∈ s.dirList ∧ p ≠ c.name) ∨ (c.isdir = true ∧ p = c.name)) := by
  rw [deleteChild]
  split
  · rename_i hdir
    refine ⟨rfl, by simp [setType], ?_⟩
    by_cases hp : p = c.name <;> simp [setType, hdir, hp]
  · rename_i hfile
    exact ⟨rfl, by simp [setType], by simp [setType, hfile]⟩

theorem Once.deleteChild (h : Once s) (c : Node) : Once (s.deleteChild c) := by
  rw [Source.deleteChild]
  split
  · exact (h.setType _).appendDir
  · exact (h.setType _).removeUser

/-- What the children of a directory that is not needed come to. -/
theorem foldl_deleteChild_does {children : List Node} (hnodup : (children.map Node.name).Nodup)
    (s : Source) (p : Bytes) :
    ((children.foldl deleteChild s).types p =
        if p ∈ children.map Node.name then .dirDeleted else s.types p) ∧
      (p ∈ (children.foldl deleteChild s).delList ↔
        p ∈ s.delList ∧ p ∉ children.map Node.name) ∧
      (p ∈ (children.foldl deleteChild s).dirList ↔
        (p ∈ s.dirList ∧ p ∉ children.map Node.name) ∨
          ∃ c ∈ children, c.isdir = true ∧ c.name = p) := by
  induction children generalizing s with
  | nil => simp
  | cons c children ih =>
      obtain ⟨hc, hchildren⟩ := nodup_cons.mp hnodup
      obtain ⟨htypes, hdel, hdir⟩ := ih hchildren (deleteChild s c)
      obtain ⟨htypes₁, hdel₁, hdir₁⟩ := deleteChild_does s c p
      rw [foldl_cons, htypes, hdel, hdir, htypes₁, hdel₁, hdir₁]
      simp only [map_cons, mem_cons, not_or]
      refine ⟨?_, and_assoc, ?_⟩
      · by_cases hp : p ∈ children.map Node.name
        · simp [hp]
        · simp [hp]
      · constructor
        · rintro (⟨⟨hs, hne⟩ | ⟨hcdir, rfl⟩, hnot⟩ | ⟨d, hd, hddir, rfl⟩)
          · exact .inl ⟨hs, hne, hnot⟩
          · exact .inr ⟨c, .inl rfl, hcdir, rfl⟩
          · exact .inr ⟨d, .inr hd, hddir, rfl⟩
        · rintro (⟨hs, hne, hnot⟩ | ⟨d, rfl | hd, hddir, rfl⟩)
          · exact .inl ⟨.inl ⟨hs, hne⟩, hnot⟩
          · exact .inl ⟨.inr ⟨hddir, rfl⟩, hc⟩
          · exact .inr ⟨d, hd, hddir, rfl⟩

theorem Once.foldl_deleteChild (h : Once s) (children : List Node) :
    Once (children.foldl Source.deleteChild s) := by
  induction children generalizing s with
  | nil => exact h
  | cons c children ih => exact ih (h.deleteChild c)

/-! ## all of them -/

/-- In the middle of `handle_useless_dir`: `useless` are the directories that were in the list at
first, `files` what was in the list of deleted objects, and `popped` the directories that were taken
so far. -/
structure Rescan (nodes : List Node) (useless files popped : List Bytes) (s : Source) : Prop where
  siblings : s.siblings = nodes.filter (·.parents ∉ popped)
  dirList : ∀ q ∈ s.dirList, q ∈ useless
  left : ∀ q ∈ useless, q ∈ s.dirList ∨ q ∈ popped
  taken : ∀ q ∈ popped, q ∈ useless
  types : ∀ x ∈ nodes, x.name ∈ useless →
    s.types x.name = if x.parents ∈ popped then .dirDeleted else .unknown
  delList : ∀ q, q ∈ s.delList ↔ ∃ x ∈ nodes, x.name = q ∧ x.parents ∉ popped ∧
    (x.isdir = true ∧ x.name ∈ popped ∨ x.name ∈ files)
  once : Once s

/-- What is known of the directories that are not needed: they are directories below the root, and
with one of them go those below it. -/
structure Useless (nodes : List Node) (useless : List Bytes) : Prop where
  nodup : (nodes.map Node.name).Nodup
  dirs : ∀ q ∈ useless, ∃ x ∈ nodes, x.isdir = true ∧ x.name = q
  below : ∀ x ∈ nodes, x.isdir = true → x.parents ∈ useless → x.name ∈ useless

theorem Useless.eq_of_name {useless : List Bytes} (h : Useless nodes useless) {y : Node}
    (hx : x ∈ nodes) (hy : y ∈ nodes) (heq : x.name = y.name) : x = y :=
  inj_on_of_nodup_map h.nodup hx hy heq

theorem Useless.isdir {useless : List Bytes} (h : Useless nodes useless) (hx : x ∈ nodes)
    (hname : x.name ∈ useless) : x.isdir = true := by
  obtain ⟨y, hy, hdir, heq⟩ := h.dirs _ hname
  rwa [h.eq_of_name hx hy heq.symm]

section Rescan

variable {useless files popped : List Bytes} {n : Bytes} {rest : List Bytes}

/-- The children of a directory that is taken, as `Rescan` sees them: none when it was taken
before. -/
theorem Rescan.children (h : Rescan nodes useless files popped s) :
    (s.siblings.filter fun nd => nd.parents = n) =
      nodes.filter fun nd => nd.parents = n ∧ nd.parents ∉ popped := by
  rw [h.siblings, filter_filter]
  exact filter_congr fun nd _ => by simp

/-- A directory that is taken goes to the deleted objects unless its parents went before. -/
theorem appendUnknown_does (honce : Once s) {gone : Prop} [Decidable gone]
    (htype : s.types n = if gone then .dirDeleted else .unknown) :
    ∃ s', s' = (if s.types n = .unknown then s.appendDel n else s) ∧ Once s' ∧
      s'.siblings = s.siblings ∧ s'.types = s.types ∧
      (∀ q, q ∈ s'.dirList ∨ q = n ↔ q ∈ s.dirList ∨ q = n) ∧
      (∀ q, q ∈ s'.delList ↔ q ∈ s.delList ∨ q = n ∧ ¬ gone) := by
  refine ⟨_, rfl, ?_⟩
  by_cases hgone : gone
  · rw [if_pos hgone] at htype
    rw [if_neg (by rw [htype]; decide)]
    exact ⟨honce, rfl, rfl, fun q => .rfl, fun q => by simp [hgone]⟩
  · rw [if_neg hgone] at htype
    rw [if_pos htype]
    refine ⟨honce.appendDel, rfl, rfl, fun q => ?_, fun q => by simp [hgone]⟩
    rw [mem_dirList_appendDel]
    tauto

/-- A round of `handle_useless_dir`. -/
theorem Rescan.uselessDir (hu : Useless nodes useless)
    (h : Rescan nodes useless files popped s) (hlist : s.dirList = n :: rest) :
    Rescan nodes useless files (n :: popped)
      ({ s with dirList := rest }.uselessDir n) := by
  obtain ⟨d, hd, hddir, rfl⟩ := hu.dirs n (h.dirList n (hlist ▸ mem_cons_self))
  have hduseless := h.dirList d.name (hlist ▸ mem_cons_self)
  have hsub : ∀ q ∈ rest, q ∈ useless := fun q hq => h.dirList q (hlist ▸ mem_cons_of_mem _ hq)
  have honce : Once { s with dirList := rest } :=
    ⟨(nodup_cons.mp (hlist ▸ h.once.dirs)).2, h.once.files, h.once.dels⟩
  obtain ⟨s₁, hs₁, honce₁, hsib₁, htypes₁, hdirs₁, hdels₁⟩ :=
    appendUnknown_does honce (h.types d hd hduseless)
  -- its children, and what becomes of them
  have hchildren : ∀ q, q ∈ (nodes.filter fun nd => nd.parents = d.name ∧
      nd.parents ∉ popped).map Node.name ↔
      ∃ y ∈ nodes, y.parents = d.name ∧ d.name ∉ popped ∧ y.name = q := by
    intro q
    simp only [mem_map, mem_filter, decide_eq_true_eq]
    constructor
    · rintro ⟨y, ⟨hy, hpar, hnot⟩, rfl⟩
      exact ⟨y, hy, hpar, hpar ▸ hnot, rfl⟩
    · rintro ⟨y, hy, hpar, hnot, rfl⟩
      exact ⟨y, ⟨hy, hpar, hpar ▸ hnot⟩, rfl⟩
  have hdifferent : ((nodes.filter fun nd => nd.parents = d.name ∧ nd.parents ∉ popped).map
      Node.name).Nodup := hu.nodup.sublist (filter_sublist.map Node.name)
  have hfold := foldl_deleteChild_does hdifferent
    { s₁ with siblings := s.siblings.filter fun nd => nd.parents ≠ d.name }
  rw [Source.uselessDir, ← hs₁, hsib₁, h.children]
  refine ⟨?_, fun q hq => ?_, fun q hq => ?_, ?_, fun x hx hxuseless => ?_, fun q => ?_, ?_⟩
  · rw [siblings_foldl_deleteChild]
    show s.siblings.filter _ = _
    rw [h.siblings, filter_filter]
    exact filter_congr fun nd _ => by simp [not_or]
  · obtain ⟨hq, -⟩ | ⟨c, hc, hcdir, rfl⟩ := (hfold q).2.2.mp hq
    · obtain hq | rfl := (hdirs₁ q).mp (.inl hq)
      · exact hsub q hq
      · exact hduseless
    · obtain ⟨y, hy, hpar, -, heq⟩ := (hchildren _).mp (mem_map_of_mem hc)
      obtain rfl := hu.eq_of_name hy (mem_filter.mp hc).1 heq
      exact hu.below y hy hcdir (hpar ▸ hduseless)
  · by_cases hqd : q = d.name
    · exact .inr (hqd ▸ mem_cons_self)
    obtain hq' | hq' := h.left q hq
    · rw [hlist, mem_cons] at hq'
      left
      rw [(hfold q).2.2]
      by_cases hchild : q ∈ (nodes.filter fun nd => nd.parents = d.name ∧
          nd.parents ∉ popped).map Node.name
      · obtain ⟨c, hc, rfl⟩ := mem_map.mp hchild
        exact .inr ⟨c, hc, hu.isdir (mem_filter.mp hc).1 hq, rfl⟩
      · have hmem := (hdirs₁ q).mpr (.inl (hq'.resolve_left hqd))
        exact .inl ⟨hmem.resolve_right hqd, hchild⟩
    · exact .inr (mem_cons_of_mem _ hq')
  · exact forall_mem_cons.mpr ⟨hduseless, h.taken⟩
  · rw [(hfold x.name).1]
    show (if _ then _ else s₁.types x.name) = _
    rw [htypes₁, h.types x hx hxuseless]
    simp only [hchildren]
    by_cases hpar : x.parents ∈ popped
    · simp [hpar]
    · by_cases hparn : x.parents = d.name
      · rw [if_pos ⟨x, hx, hparn, hparn ▸ hpar, rfl⟩, if_pos (hparn ▸ mem_cons_self)]
      · rw [if_neg, if_neg hpar, if_neg (by simp [hpar, hparn])]
        rintro ⟨y, hy, hypar, -, heq⟩
        exact hparn (hu.eq_of_name hy hx heq ▸ hypar)
  · rw [(hfold q).2.1, hchildren]
    show q ∈ s₁.delList ∧ _ ↔ _
    rw [hdels₁, h.delList]
    constructor
    · rintro ⟨⟨x, hx, rfl, hpar, hwhy⟩ | ⟨rfl, hpar⟩, hchild⟩
      · have hne : x.parents ≠ d.name := fun heq => hchild ⟨x, hx, heq, heq ▸ hpar, rfl⟩
        refine ⟨x, hx, rfl, by simp [hpar, hne], hwhy.imp_left fun hwhy => ?_⟩
        exact ⟨hwhy.1, mem_cons_of_mem _ hwhy.2⟩
      · have hne : d.parents ≠ d.name := fun heq => hchild ⟨d, hd, heq, heq ▸ hpar, rfl⟩
        exact ⟨d, hd, rfl, by simp [hpar, hne], .inl ⟨hddir, mem_cons_self⟩⟩
    · rintro ⟨x, hx, rfl, hpar, hwhy⟩
      rw [mem_cons, not_or] at hpar
      refine ⟨?_, ?_⟩
      · obtain ⟨hxdir, hname⟩ | hfile := hwhy
        · obtain hname | hname := mem_cons.mp hname
          · obtain rfl := hu.eq_of_name hx hd hname
            exact .inr ⟨rfl, hpar.2⟩
          · exact .inl ⟨x, hx, rfl, hpar.2, .inl ⟨hxdir, hname⟩⟩
        · exact .inl ⟨x, hx, rfl, hpar.2, .inr hfile⟩
      · rintro ⟨y, hy, hypar, -, heq⟩
        exact hpar.1 (hu.eq_of_name hy hx heq ▸ hypar)
  · have honce₂ : Once { s₁ with siblings := s.siblings.filter fun nd => nd.parents ≠ d.name } :=
      ⟨honce₁.dirs, honce₁.files, honce₁.dels⟩
    exact honce₂.foldl_deleteChild _

/-- `handle_useless_dir` from any round on. -/
theorem Rescan.handleUselessDir (hu : Useless nodes useless) (popped : List Bytes)
    (h : Rescan nodes useless files popped s) :
    ∃ popped', Rescan nodes useless files popped' s.handleUselessDir ∧
      s.handleUselessDir.dirList = [] := by
  fun_induction Source.handleUselessDir s generalizing popped with
  | case1 s hlist => exact ⟨popped, h, hlist⟩
  | case2 s name rest hlist ih => exact ih (name :: popped) (h.uselessDir hu hlist)

/-- What `rescan_delete_objects` starts from: nothing but the types of directories and the lists
is known. -/
structure Scanned (nodes : List Node) (s : Source) : Prop where
  siblings : s.siblings = nodes
  types : ∀ x ∈ nodes, x.name ∈ s.dirList → s.types x.name = .unknown
  files : ∀ q, q ∈ s.fileList ∨ q ∈ s.delList → ∃ x ∈ nodes, x.isdir = false ∧ x.name = q
  once : Once s
  disjoint : ∀ q ∈ s.fileList, q ∉ s.delList

/-- What `rescan_delete_objects` leaves in the list of deleted objects: what is useless itself, and
whose directory is not. -/
theorem Scanned.rescanDeleteObjects (h : Scanned nodes s) (hu : Useless nodes s.dirList) :
    s.rescanDeleteObjects.delList.Nodup ∧
      ∀ q, q ∈ s.rescanDeleteObjects.delList ↔ ∃ x ∈ nodes, x.name = q ∧ x.parents ∉ s.dirList ∧
        (x.name ∈ s.dirList ∨ x.name ∈ s.delList ++ s.fileList) := by
  have hstart : Rescan nodes s.dirList (s.delList ++ s.fileList) []
      { s with fileList := [], delList := s.delList ++ s.fileList } := by
    refine ⟨?_, fun q hq => hq, fun q hq => .inl hq, fun q hq => absurd hq not_mem_nil,
      fun x hx hname => ?_, fun q => ?_, h.once.dirs, nodup_nil, ?_⟩
    · rw [h.siblings]
      exact (filter_eq_self.mpr fun nd _ => by simp).symm
    · rw [if_neg (not_mem_nil)]
      exact h.types x hx hname
    · constructor
      · intro hq
        obtain ⟨x, hx, -, rfl⟩ := h.files q ((mem_append.mp hq).symm)
        exact ⟨x, hx, rfl, not_mem_nil, .inr hq⟩
      · rintro ⟨x, -, rfl, -, ⟨-, hx⟩ | hx⟩
        · cases hx
        · exact hx
    · exact h.once.dels.append h.once.files fun q hdel hfile => h.disjoint q hfile hdel
  obtain ⟨popped, hend, hempty⟩ := hstart.handleUselessDir hu []
  -- in the end all useless directories were taken
  have hpopped : ∀ q, q ∈ popped ↔ q ∈ s.dirList := fun q =>
    ⟨hend.taken q, fun hq => (hend.left q hq).resolve_left (by rw [hempty]; exact not_mem_nil)⟩
  refine ⟨hend.once.dels, fun q => ?_⟩
  rw [Source.rescanDeleteObjects, hend.delList]
  simp only [hpopped]
  refine exists_congr fun x => and_congr_right fun hx => and_congr_right fun _ =>
    and_congr_right fun _ => or_congr_left ?_
  exact ⟨And.right, fun hname => ⟨hu.isdir hx hname, hname⟩⟩

end Rescan

end V2I.Ota.Source
