import V2I.Ota.Merge.Loaded

/-!
# V2I.Ota.Merge.Placed

Where the listener puts the new files. A call changes nothing but what is known of its own node
(`Target.Frame`), and leaves a file in exactly one place: the new ones, the same ones, the
duplicates, or one list of targets of a move.
-/

namespace V2I.Ota.Target

open List

variable {t t' t'' : Target} {n q src : Bytes}

/-- The old files that are moved. -/
def moved (t : Target) : List Bytes := t.movedFileinfoList.map MovedFileinfo.src

/-- All that was put somewhere, with every list it is in. -/
def places (t : Target) : List Bytes :=
  t.fileList ++ t.sameList ++ t.dupList ++ t.movedFileinfoList.flatMap MovedFileinfo.toList

/-- `q` is a target of the move of `src`. -/
def IsTarget (t : Target) (src q : Bytes) : Prop :=
  ∃ info ∈ t.movedFileinfoList, info.src = src ∧ q ∈ info.toList

/-- Only what is known of the node `n` changes. -/
structure Frame (n : Bytes) (t t' : Target) : Prop where
  types : ∀ q, q ≠ n → t'.types q = t.types q
  dupOf : ∀ q, q ≠ n → t'.dupOf q = t.dupOf q
  dirList : ∀ q, q ≠ n → (q ∈ t'.dirList ↔ q ∈ t.dirList)
  fileList : ∀ q, q ≠ n → (q ∈ t'.fileList ↔ q ∈ t.fileList)
  sameList : ∀ q, q ≠ n → (q ∈ t'.sameList ↔ q ∈ t.sameList)
  dupList : ∀ q, q ≠ n → (q ∈ t'.dupList ↔ q ∈ t.dupList)
  targets : ∀ src q, q ≠ n → (t'.IsTarget src q ↔ t.IsTarget src q)
  count : ∀ q, q ≠ n → t'.places.count q = t.places.count q

namespace Frame

theorem refl (n : Bytes) (t : Target) : Frame n t t :=
  ⟨fun _ _ => rfl, fun _ _ => rfl, fun _ _ => .rfl, fun _ _ => .rfl, fun _ _ => .rfl,
    fun _ _ => .rfl, fun _ _ _ => .rfl, fun _ _ => rfl⟩

theorem trans (h : Frame n t t') (h' : Frame n t' t'') : Frame n t t'' where
  types q hq := (h'.types q hq).trans (h.types q hq)
  dupOf q hq := (h'.dupOf q hq).trans (h.dupOf q hq)
  dirList q hq := (h'.dirList q hq).trans (h.dirList q hq)
  fileList q hq := (h'.fileList q hq).trans (h.fileList q hq)
  sameList q hq := (h'.sameList q hq).trans (h.sameList q hq)
  dupList q hq := (h'.dupList q hq).trans (h.dupList q hq)
  targets src q hq := (h'.targets src q hq).trans (h.targets src q hq)
  count q hq := (h'.count q hq).trans (h.count q hq)

end Frame

/-! ## the operations -/

theorem count_filter_ne (q n : Bytes) (l : List Bytes) :
    (l.filter (· ≠ n)).count q = if q = n then 0 else l.count q := by
  split
  · rename_i heq
    exact count_eq_zero.mpr (by simp [heq])
  · rename_i hne
    exact count_filter (by simpa using hne)

theorem places_removeUser (t : Target) (n : Bytes) :
    (t.removeUser n).places = t.places.filter (· ≠ n) := by
  simp [places, removeUser, filter_flatMap, flatMap_map]

@[simp] theorem moved_removeUser (t : Target) (n : Bytes) : (t.removeUser n).moved = t.moved := by
  simp [moved, removeUser]

theorem isTarget_removeUser (t : Target) (n : Bytes) :
    (t.removeUser n).IsTarget src q ↔ t.IsTarget src q ∧ q ≠ n := by
  constructor
  · rintro ⟨info, hinfo, rfl, hq⟩
    obtain ⟨old, hold, rfl⟩ := mem_map.mp hinfo
    obtain ⟨hq, hne⟩ := mem_filter.mp hq
    exact ⟨⟨old, hold, rfl, hq⟩, by simpa using hne⟩
  · rintro ⟨⟨info, hinfo, rfl, hq⟩, hne⟩
    exact ⟨_, mem_map_of_mem hinfo, rfl, mem_filter.mpr ⟨hq, by simpa using hne⟩⟩

theorem frame_removeUser (t : Target) (n : Bytes) : Frame n t (t.removeUser n) where
  types _ _ := rfl
  dupOf _ _ := rfl
  dirList q hq := by simp [removeUser, hq]
  fileList q hq := by simp [removeUser, hq]
  sameList q hq := by simp [removeUser, hq]
  dupList q hq := by simp [removeUser, hq]
  targets src q hq := by simp [isTarget_removeUser, hq]
  count q hq := by rw [places_removeUser, count_filter_ne, if_neg hq]

theorem frame_setType (t : Target) (n : Bytes) (type : NodeType) : Frame n t (t.setType n type) :=
  { Frame.refl n t with types := fun _ hq => if_neg hq }

theorem count_places (t : Target) (q : Bytes) :
    t.places.count q = t.fileList.count q + t.sameList.count q + t.dupList.count q +
      (t.movedFileinfoList.flatMap MovedFileinfo.toList).count q := by
  rw [places, count_append, count_append, count_append]

/-- `t'` is `t` with `n` in one more place. -/
def Adds (n : Bytes) (t t' : Target) : Prop :=
  ∀ q, t'.places.count q = t.places.count q + [n].count q

theorem Adds.count_of_ne (h : Adds n t t') (hq : q ≠ n) : t'.places.count q = t.places.count q := by
  rw [h q, count_singleton, if_neg (by simpa using hq.symm), Nat.add_zero]

/-- What is taken out of its list and put into another is in one place. -/
theorem Adds.count_removeUser (h : Adds n (t.removeUser n) t') : t'.places.count n = 1 := by
  rw [h n, places_removeUser, count_filter_ne, if_pos rfl, count_singleton_self]

theorem adds_appendIndicator (t : Target) (n : Bytes) :
    Adds n (t.removeUser n) (t.appendIndicator n false) := by
  intro q
  rw [count_places, count_places]
  show ((t.removeUser n).fileList ++ [n]).count q + (t.removeUser n).sameList.count q +
    (t.removeUser n).dupList.count q +
      ((t.removeUser n).movedFileinfoList.flatMap MovedFileinfo.toList).count q = _
  rw [count_append]
  omega

theorem adds_appendSame (t : Target) (n : Bytes) : Adds n (t.removeUser n) (t.appendSame n) := by
  intro q
  rw [count_places, count_places]
  show (t.removeUser n).fileList.count q + ((t.removeUser n).sameList ++ [n]).count q +
    (t.removeUser n).dupList.count q +
      ((t.removeUser n).movedFileinfoList.flatMap MovedFileinfo.toList).count q = _
  rw [count_append]
  omega

theorem adds_appendDup (t : Target) (n : Bytes) : Adds n (t.removeUser n) (t.appendDup n) := by
  intro q
  rw [count_places, count_places]
  show (t.removeUser n).fileList.count q + (t.removeUser n).sameList.count q +
    ((t.removeUser n).dupList ++ [n]).count q +
      ((t.removeUser n).movedFileinfoList.flatMap MovedFileinfo.toList).count q = _
  rw [count_append]
  omega

theorem frame_appendDirectory (t : Target) (n : Bytes) : Frame n t (t.appendIndicator n true) :=
  (frame_removeUser t n).trans
    { Frame.refl n _ with dirList := fun q hq => by simp [appendIndicator, hq] }

theorem frame_appendFile (t : Target) (n : Bytes) : Frame n t (t.appendIndicator n false) :=
  (frame_removeUser t n).trans
    { Frame.refl n _ with
      fileList := fun q hq => by simp [appendIndicator, hq]
      count := fun _ hq => (adds_appendIndicator t n).count_of_ne hq }

theorem frame_appendSame (t : Target) (n : Bytes) : Frame n t (t.appendSame n) :=
  (frame_removeUser t n).trans
    { Frame.refl n _ with
      sameList := fun q hq => by simp [appendSame, hq]
      count := fun _ hq => (adds_appendSame t n).count_of_ne hq }

theorem frame_appendDup (t : Target) (n : Bytes) : Frame n t (t.appendDup n) :=
  (frame_removeUser t n).trans
    { Frame.refl n _ with
      dupList := fun q hq => by simp [appendDup, hq]
      count := fun _ hq => (adds_appendDup t n).count_of_ne hq }

/-! ## moves -/

variable {infos : List MovedFileinfo}

/-- A target more for the one move of `src`. -/
theorem count_addTarget (hnodup : (infos.map MovedFileinfo.src).Nodup)
    (hsrc : src ∈ infos.map MovedFileinfo.src) (n q : Bytes) :
    ((infos.map fun info => if info.src = src then { info with toList := info.toList ++ [n] }
      else info).flatMap MovedFileinfo.toList).count q =
      (infos.flatMap MovedFileinfo.toList).count q + [n].count q := by
  induction infos with
  | nil => cases hsrc
  | cons info infos ih =>
      obtain ⟨hnot, hnodup⟩ := nodup_cons.mp hnodup
      rw [map_cons, flatMap_cons, flatMap_cons, count_append, count_append]
      by_cases heq : info.src = src
      · -- the others are not of this source
        have hrest : (infos.map fun info => if info.src = src then
            { info with toList := info.toList ++ [n] } else info) = infos := by
          refine (map_congr_left fun other hother => if_neg ?_).trans (map_id infos)
          rintro hother'
          exact hnot (heq.trans hother'.symm ▸ mem_map_of_mem hother)
        rw [hrest, if_pos heq, count_append]
        omega
      · rw [if_neg heq, ih hnodup ((mem_cons.mp hsrc).resolve_left (Ne.symm heq))]
        omega

theorem any_src :
    (infos.any fun info => info.src = src) = true ↔ src ∈ infos.map MovedFileinfo.src := by
  simp

/-- `add_moveto_object`, whether or not there is a `moved_fileinfo` of the old file. -/
theorem addMoveto_does (t : Target) (hnodup : t.moved.Nodup) (src n : Bytes) :
    Adds n (t.removeUser n) (t.addMoveto src n) ∧ (t.addMoveto src n).moved.Nodup ∧
      (∀ q, q ∈ (t.addMoveto src n).moved ↔ q ∈ t.moved ∨ q = src) ∧
      ∀ s q, (t.addMoveto src n).IsTarget s q ↔ t.IsTarget s q ∧ q ≠ n ∨ s = src ∧ q = n := by
  have hnodup' : (t.removeUser n).moved.Nodup := by rwa [moved_removeUser]
  rw [addMoveto]
  split
  · rename_i hany
    have hsrc : src ∈ (t.removeUser n).moved := any_src.mp hany
    have hmoved : (((t.removeUser n).movedFileinfoList.map fun info => if info.src = src then
        { info with toList := info.toList ++ [n] } else info).map MovedFileinfo.src) = t.moved := by
      rw [← moved_removeUser t n, map_map]
      refine map_congr_left fun info _ => ?_
      simp only [Function.comp]
      split
      · rfl
      · rfl
    refine ⟨fun q => ?_, ?_, fun q => ?_, fun s q => ?_⟩
    · rw [count_places, count_places]
      dsimp only
      rw [count_addTarget hnodup' hsrc n q]
      omega
    · rw [moved]
      dsimp only
      rwa [hmoved]
    · rw [moved]
      dsimp only
      rw [hmoved, or_iff_left_of_imp]
      rintro rfl
      rwa [moved_removeUser] at hsrc
    · rw [← isTarget_removeUser]
      constructor
      · rintro ⟨info, hinfo, rfl, hq⟩
        obtain ⟨old, hold, rfl⟩ := mem_map.mp hinfo
        by_cases heq : old.src = src
        · rw [if_pos heq] at hq ⊢
          obtain hq | hq := mem_append.mp hq
          · exact .inl ⟨old, hold, rfl, hq⟩
          · exact .inr ⟨heq, mem_singleton.mp hq⟩
        · rw [if_neg heq] at hq ⊢
          exact .inl ⟨old, hold, rfl, hq⟩
      · rintro (⟨info, hinfo, rfl, hq⟩ | ⟨rfl, rfl⟩)
        · refine ⟨_, mem_map_of_mem hinfo, ?_, ?_⟩
          · split
            · rfl
            · rfl
          · split
            · exact mem_append_left _ hq
            · exact hq
        · obtain ⟨info, hinfo, heq⟩ := mem_map.mp hsrc
          refine ⟨_, mem_map_of_mem hinfo, ?_, ?_⟩
          · rw [if_pos heq]
            exact heq
          · rw [if_pos heq]
            exact mem_append_right _ mem_cons_self
  · rename_i hany
    have hsrc : src ∉ (t.removeUser n).moved := fun hmem => hany (any_src.mpr hmem)
    have hmoved : ((t.removeUser n).movedFileinfoList ++ [(⟨src, [n]⟩ : MovedFileinfo)]).map
        MovedFileinfo.src = t.moved ++ [src] := by
      rw [map_append, ← moved_removeUser t n]
      rfl
    refine ⟨fun q => ?_, ?_, fun q => ?_, fun s q => ?_⟩
    · rw [count_places, count_places]
      dsimp only
      rw [flatMap_append, count_append, flatMap_singleton]
      exact (Nat.add_assoc _ _ _).symm
    · rw [moved]
      dsimp only
      rw [hmoved]
      rw [moved_removeUser] at hsrc
      exact hnodup.append (nodup_singleton src) (disjoint_singleton.mpr hsrc)
    · rw [moved]
      dsimp only
      rw [hmoved, mem_append, mem_singleton]
    · rw [← isTarget_removeUser]
      constructor
      · rintro ⟨info, hinfo, rfl, hq⟩
        obtain hinfo | hinfo := mem_append.mp hinfo
        · exact .inl ⟨info, hinfo, rfl, hq⟩
        · obtain rfl := mem_singleton.mp hinfo
          exact .inr ⟨rfl, mem_singleton.mp hq⟩
      · rintro (⟨info, hinfo, rfl, hq⟩ | ⟨rfl, rfl⟩)
        · exact ⟨info, mem_append_left _ hinfo, rfl, hq⟩
        · exact ⟨_, mem_append_right _ mem_cons_self, rfl, mem_cons_self⟩

/-- Nothing but the moves changes, the lists that the node was in apart. -/
theorem addMoveto_eq (t : Target) (src n : Bytes) :
    ∃ infos, t.addMoveto src n = { t.removeUser n with movedFileinfoList := infos } := by
  rw [addMoveto]
  split
  · exact ⟨_, rfl⟩
  · exact ⟨_, rfl⟩

theorem frame_addMoveto (t : Target) (hnodup : t.moved.Nodup) (src n : Bytes) :
    Frame n t (t.addMoveto src n) := by
  obtain ⟨hadds, -, -, htarget⟩ := addMoveto_does t hnodup src n
  have hframe := frame_removeUser t n
  obtain ⟨infos, hinfos⟩ := addMoveto_eq t src n
  rw [hinfos] at hadds htarget ⊢
  exact { hframe with
    targets := fun s q hq => by simp [htarget, hq]
    count := fun q hq => (hadds.count_of_ne hq).trans (hframe.count q hq) }

end V2I.Ota.Target
