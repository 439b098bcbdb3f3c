import V2I.Ota.Merge.Deleted
import V2I.Ota.Merge.Placed

/-!
# V2I.Ota.Merge.Scan

The scan of the new tree, call by call. `onFile_does` says once what a call for a file does to both
lists; `Placed` and `Left` are what holds between two calls of the new files and of the old ones,
given the calls that were made.
-/

namespace V2I.Ota

open List

variable {sha256 : Bytes → Digest} {src : Loaded} {done : List Event} {m : Merge} {nd : Node}

/-! ## one call -/

/-- Where a file went. -/
inductive Put (sha256 : Bytes → Digest) (src : Loaded) (m : Merge) (nd : Node) (m' : Merge) : Prop
  | same (old : Node) (found : src.findNode nd.name = some old) (isfile : old.isdir = false)
      (digest : sha256 old.content = sha256 nd.content)
      (source : m'.source = (m.source.setType nd.name .fileTheSame).removeUser nd.name)
      (moved : m'.target.moved = m.target.moved)
      (type : m'.target.types nd.name = .fileTheSame) (mem : nd.name ∈ m'.target.sameList)
  | moved (old : Node) (new : src.findNode nd.name = none)
      (found : findDigest sha256 src.digests (sha256 nd.content) = some old)
      (source : m'.source = (m.source.setType old.name .fileMoveSrc).removeUser old.name)
      (moved : ∀ q, q ∈ m'.target.moved ↔ q ∈ m.target.moved ∨ q = old.name)
      (type : m'.target.types nd.name = .fileMoveDest)
      (mem : ∀ s, m'.target.IsTarget s nd.name ↔ s = old.name)
  | created
      (source : (m'.source = m.source ∧ src.findNode nd.name = none ∧
          findDigest sha256 src.digests (sha256 nd.content) = none) ∨
        (m'.source = m.source.removeUser nd.name ∧ ∃ old, src.findNode nd.name = some old))
      (moved : m'.target.moved = m.target.moved)
      (type : m'.target.types nd.name = .fileNewCreated)
      (mem : nd.name ∈ m'.target.fileList ∨ nd.name ∈ m'.target.dupList ∧
        ∃ y, findDigest sha256 m'.target.digests (sha256 nd.content) = some y ∧
          y.name ≠ nd.name ∧ m.target.types y.name = .fileNewCreated ∧
            m'.target.dupOf nd.name = some y.name)

/-- What a call for a file does, whatever place it finds. -/
structure Handled (sha256 : Bytes → Digest) (src : Loaded) (m : Merge) (nd : Node) (m' : Merge) :
    Prop where
  frame : m.target.Frame nd.name m'.target
  count : m'.target.places.count nd.name = 1
  nodup : m'.target.moved.Nodup
  digests : m'.target.digests = addByDigest sha256 m.target.digests nd
  put : Put sha256 src m nd m'

open Target

/-- A file that is new, or found twice in the new tree. -/
theorem checkSetFileExists_does (sha256 : Bytes → Digest) {t : Target}
    (hcount : t.places.count nd.name = 1) (hfile : nd.name ∈ t.fileList) :
    t.Frame nd.name (t.checkSetFileExists sha256 nd) ∧
      (t.checkSetFileExists sha256 nd).places.count nd.name = 1 ∧
      (t.checkSetFileExists sha256 nd).moved = t.moved ∧
      (t.checkSetFileExists sha256 nd).digests = t.digests ∧
      (t.checkSetFileExists sha256 nd).types = t.types ∧
      (nd.name ∈ (t.checkSetFileExists sha256 nd).fileList ∨
        nd.name ∈ (t.checkSetFileExists sha256 nd).dupList ∧
          ∃ y, findDigest sha256 t.digests (sha256 nd.content) = some y ∧
            y.name ≠ nd.name ∧ t.types y.name = .fileNewCreated ∧
              (t.checkSetFileExists sha256 nd).dupOf nd.name = some y.name) := by
  rw [checkSetFileExists]
  split
  · exact ⟨.refl _ _, hcount, rfl, rfl, rfl, .inl hfile⟩
  · rename_i y hy
    split
    · exact ⟨.refl _ _, hcount, rfl, rfl, rfl, .inl hfile⟩
    · rename_i hne
      split
      · exact ⟨.refl _ _, hcount, rfl, rfl, rfl, .inl hfile⟩
      · rename_i htype
        refine ⟨?_, (adds_appendDup _ _).count_removeUser, moved_removeUser _ _, rfl, rfl,
          .inr ⟨mem_append_right _ mem_cons_self, y, hy, hne, not_not.mp htype,
            if_pos rfl⟩⟩
        have hset : t.Frame nd.name
            { t with dupOf := fun n => if n = nd.name then some y.name else t.dupOf n } :=
          { Frame.refl nd.name t with dupOf := fun _ hq => if_neg hq }
        exact hset.trans (frame_appendDup _ _)

/-- What `on_file` of `filelist_indicator` and the digest leave. -/
def Target.indicated (sha256 : Bytes → Digest) (t : Target) (nd : Node) : Target :=
  { t.appendIndicator nd.name false with digests := addByDigest sha256 t.digests nd }

theorem indicated_does (sha256 : Bytes → Digest) (t : Target) (nd : Node) :
    t.Frame nd.name (t.indicated sha256 nd) ∧
      (t.indicated sha256 nd).places.count nd.name = 1 ∧
      nd.name ∈ (t.indicated sha256 nd).fileList ∧
      (t.indicated sha256 nd).moved = t.moved := by
  refine ⟨?_, (adds_appendIndicator t nd.name).count_removeUser,
    mem_append_right _ mem_cons_self, moved_removeUser t nd.name⟩
  exact (frame_appendFile t nd.name).trans
    { Frame.refl nd.name (t.appendIndicator nd.name false) with }

/-- A file whose content is not taken from the old tree. -/
theorem created_does (m : Merge) (nd : Node) (hnodup : m.target.moved.Nodup) {source : Source}
    (hsource : (source = m.source ∧ src.findNode nd.name = none ∧
        findDigest sha256 src.digests (sha256 nd.content) = none) ∨
      (source = m.source.removeUser nd.name ∧ ∃ old, src.findNode nd.name = some old)) :
    Handled sha256 src m nd ⟨source,
      ((m.target.indicated sha256 nd).setType nd.name .fileNewCreated).checkSetFileExists
        sha256 nd⟩ := by
  obtain ⟨hframe, hcount, hfile, hmoved⟩ := indicated_does sha256 m.target nd
  replace hframe := hframe.trans (frame_setType _ nd.name .fileNewCreated)
  obtain ⟨hframe', hcount', hmoved', hdigests', htypes', hmem⟩ :=
    checkSetFileExists_does sha256
      (t := (m.target.indicated sha256 nd).setType nd.name .fileNewCreated) hcount hfile
  refine ⟨hframe.trans hframe', hcount', ?_, hdigests',
    .created hsource (hmoved'.trans hmoved) ?_ ?_⟩
  · rw [hmoved']
    exact hmoved ▸ hnodup
  · rw [htypes']
    exact if_pos rfl
  · refine hmem.imp_right (And.imp_right ?_)
    rintro ⟨y, hy, hne, hytype, hdup⟩
    refine ⟨y, ?_, hne, ?_, hdup⟩
    · rwa [hdigests']
    · rwa [hframe.types _ hne] at hytype

/-- `on_file` -/
theorem onFile_does (sha256 : Bytes → Digest) (src : Loaded) (m : Merge) (nd : Node)
    (hnodup : m.target.moved.Nodup) : Handled sha256 src m nd (m.onFile sha256 src nd) := by
  rw [Merge.onFile]
  split
  · rename_i hnew
    split
    · rename_i old hold
      obtain ⟨hframe, -, -, hmoved⟩ := indicated_does sha256 m.target nd
      obtain ⟨t₁, ht₁, hframe₁, hmoved₁⟩ : ∃ t₁, t₁ = (m.target.indicated sha256 nd).setType
          nd.name .fileMoveDest ∧ m.target.Frame nd.name t₁ ∧ t₁.moved = m.target.moved :=
        ⟨_, rfl, hframe.trans (frame_setType _ _ _), hmoved⟩
      rw [← hmoved₁] at hnodup
      obtain ⟨hadds, hnodup', hmem, htargets⟩ := addMoveto_does t₁ hnodup old.name nd.name
      obtain ⟨infos, heq⟩ := addMoveto_eq t₁ old.name nd.name
      show Handled sha256 src m nd ⟨_, ((m.target.indicated sha256 nd).setType nd.name
        .fileMoveDest).addMoveto old.name nd.name⟩
      rw [← ht₁]
      refine ⟨hframe₁.trans (frame_addMoveto _ hnodup _ _), hadds.count_removeUser, hnodup', ?_,
        .moved old hnew hold rfl (fun q => ?_) ?_ fun s => ?_⟩
      · rw [heq, ht₁]
        rfl
      · rw [hmem, hmoved₁]
      · rw [heq, ht₁]
        exact if_pos rfl
      · rw [htargets]
        simp
    · rename_i hnone
      exact created_does m nd hnodup (.inl ⟨rfl, hnew, hnone⟩)
  · rename_i old hold
    split
    · rename_i hsame
      obtain ⟨hframe, -, -, hmoved⟩ := indicated_does sha256 m.target nd
      show Handled sha256 src m nd
        ⟨_, ((m.target.indicated sha256 nd).appendSame nd.name).setType nd.name .fileTheSame⟩
      have hmoved' : ((m.target.indicated sha256 nd).appendSame nd.name).moved = m.target.moved :=
        (moved_removeUser _ nd.name).trans hmoved
      have hfile : old.isdir = false := by simpa using hsame.1
      exact ⟨(hframe.trans (frame_appendSame _ _)).trans (frame_setType _ _ _),
        (adds_appendSame _ _).count_removeUser, hmoved'.symm ▸ hnodup, rfl,
        .same old hold hfile hsame.2 rfl hmoved' (if_pos rfl)
          (mem_append_right _ mem_cons_self)⟩
    · exact created_does m nd hnodup (.inr ⟨rfl, old, hold⟩)

/-! ## the new files -/

/-- Where the new objects are after the calls `done`. -/
structure Placed (sha256 : Bytes → Digest) (src : Loaded) (done : List Event) (t : Target) :
    Prop where
  nodup : t.moved.Nodup
  dirs : ∀ n, .directory n ∈ done → n ∈ t.dirList ∧
    (t.types n = .dirNewCreated ∨ ∃ old, src.findNode n = some old ∧ old.isdir = true)
  files : ∀ x, .file x ∈ done → t.places.count x.name = 1
  same : ∀ q ∈ t.sameList, ∃ x, .file x ∈ done ∧ x.name = q ∧
    ∃ old, src.findNode q = some old ∧ old.isdir = false ∧ sha256 old.content = sha256 x.content
  dups : ∀ q ∈ t.dupList, ∃ x, .file x ∈ done ∧ x.name = q ∧
    ∃ y, .file y ∈ done ∧ t.dupOf q = some y.name ∧ y.name ≠ q ∧ y.name ∈ t.fileList ∧
      sha256 y.content = sha256 x.content
  targets : ∀ s q, t.IsTarget s q → ∃ x, .file x ∈ done ∧ x.name = q ∧
    ∃ old, findDigest sha256 src.digests (sha256 x.content) = some old ∧ old.name = s
  digests : ∀ y ∈ t.digests, .file y ∈ done ∧
    (t.types y.name = .fileNewCreated → y.name ∈ t.fileList)

theorem mem_addByDigest {digests : List Node} {y : Node} (hy : y ∈ addByDigest sha256 digests nd) :
    y ∈ digests ∨ y = nd ∧
      findDigest sha256 (addByDigest sha256 digests nd) (sha256 nd.content) = some nd := by
  rw [addByDigest] at hy ⊢
  split at hy
  · exact .inl hy
  · rename_i hany
    obtain hy | hy := mem_append.mp hy
    · exact .inl hy
    · refine .inr ⟨mem_singleton.mp hy, ?_⟩
      have hnone : (digests.find? fun old => sha256 old.content = sha256 nd.content) = none :=
        find?_eq_none.mpr fun x hx hsame => hany (any_eq_true.mpr ⟨x, hx, hsame⟩)
      rw [if_neg hany, findDigest, find?_append, hnone]
      simp

/-- What is put in one place only is in no other. -/
theorem not_mem_others {t : Target} {n : Bytes} (h : t.places.count n = 1) :
    (n ∈ t.fileList → n ∉ t.sameList ∧ n ∉ t.dupList ∧ ∀ s, ¬ t.IsTarget s n) ∧
      (n ∈ t.sameList → n ∉ t.dupList ∧ ∀ s, ¬ t.IsTarget s n) ∧
      (n ∈ t.dupList → ∀ s, ¬ t.IsTarget s n) := by
  have htarget : ∀ s, t.IsTarget s n →
      0 < (t.movedFileinfoList.flatMap MovedFileinfo.toList).count n := by
    rintro s ⟨info, hinfo, -, hn⟩
    exact count_pos_iff.mpr (mem_flatMap.mpr ⟨info, hinfo, hn⟩)
  have hpos : ∀ {l : List Bytes}, n ∈ l → 0 < l.count n := count_pos_iff.mpr
  rw [count_places] at h
  refine ⟨fun hfile => ⟨fun hsame => ?_, fun hdup => ?_, fun s hs => ?_⟩,
    fun hsame => ⟨fun hdup => ?_, fun s hs => ?_⟩, fun hdup s hs => ?_⟩
  · have := hpos hfile
    have := hpos hsame
    omega
  · have := hpos hfile
    have := hpos hdup
    omega
  · have := hpos hfile
    have := htarget s hs
    omega
  · have := hpos hsame
    have := hpos hdup
    omega
  · have := hpos hsame
    have := htarget s hs
    omega
  · have := hpos hdup
    have := htarget s hs
    omega

theorem findDigest_sound {digests : List Node} {d : Digest} {y : Node}
    (h : findDigest sha256 digests d = some y) : y ∈ digests ∧ sha256 y.content = d :=
  ⟨mem_of_find?_eq_some h, by simpa using find?_some h⟩

/-- A call for a file whose name is new keeps what is known of the others, and places the file. -/
theorem Placed.onFile (h : Placed sha256 src done m.target) (hnew : nd.name ∉ done.map Event.name) :
    Placed sha256 src (done ++ [.file nd]) (m.onFile sha256 src nd).target := by
  obtain ⟨hframe, hcount, hnodup, hdigests, hput⟩ := onFile_does sha256 src m nd h.nodup
  have hne : ∀ {e}, e ∈ done → e.name ≠ nd.name := fun he heq =>
    hnew (heq ▸ mem_map_of_mem he)
  have hold : ∀ {e}, e ∈ done → e ∈ done ++ [.file nd] := mem_append_left _
  have hlast : Event.file nd ∈ done ++ [.file nd] := mem_append_right _ mem_cons_self
  obtain ⟨hinfile, hinsame, hindup⟩ := not_mem_others hcount
  refine ⟨hnodup, fun n hn => ?_, fun x hx => ?_, fun q hq => ?_, fun q hq => ?_,
    fun s q hq => ?_, fun y hy => ?_⟩
  · -- directories
    have hn : .directory n ∈ done := by simpa using hn
    rw [hframe.dirList n (hne hn), hframe.types n (hne hn)]
    exact h.dirs n hn
  · -- files
    obtain hx | hx := mem_append.mp hx
    · rw [hframe.count x.name (hne hx)]
      exact h.files x hx
    · obtain rfl := Event.file.inj (mem_singleton.mp hx)
      exact hcount
  · -- the same ones
    by_cases hname : q = nd.name
    · subst hname
      cases hput with
      | same old found isfile digest => exact ⟨nd, hlast, rfl, old, found, isfile, digest⟩
      | moved old new found source moved type mem =>
          exact absurd ((mem old.name).mpr rfl) ((hinsame hq).2 old.name)
      | created source moved type mem =>
          obtain hfile | ⟨hdup, -⟩ := mem
          · exact absurd hq (hinfile hfile).1
          · exact absurd hdup (hinsame hq).1
    · obtain ⟨x, hx, hrest⟩ := h.same q ((hframe.sameList q hname).mp hq)
      exact ⟨x, hold hx, hrest⟩
  · -- duplicates
    by_cases hname : q = nd.name
    · subst hname
      cases hput with
      | same old found isfile digest source moved type mem => exact absurd hq (hinsame mem).1
      | moved old new found source moved type mem =>
          exact absurd ((mem old.name).mpr rfl) (hindup hq old.name)
      | created source moved type mem =>
          obtain hfile | ⟨-, y, hy, hyne, hytype, hyof⟩ := mem
          · exact absurd hq (hinfile hfile).2.1
          · obtain ⟨hymem, hydigest⟩ := findDigest_sound hy
            rw [hdigests] at hymem
            obtain hymem | ⟨rfl, -⟩ := mem_addByDigest hymem
            · obtain ⟨hydone, hyfile⟩ := h.digests y hymem
              exact ⟨nd, hlast, rfl, y, hold hydone, hyof, hyne,
                (hframe.fileList _ hyne).mpr (hyfile hytype), hydigest⟩
            · exact absurd rfl hyne
    · obtain ⟨x, hx, hxname, y, hy, hyof, hyne, hyfile, hydigest⟩ :=
        h.dups q ((hframe.dupList q hname).mp hq)
      refine ⟨x, hold hx, hxname, y, hold hy, ?_, hyne, ?_, hydigest⟩
      · rw [hframe.dupOf q hname, hyof]
      · exact (hframe.fileList _ (hne hy)).mpr hyfile
  · -- targets of moves
    by_cases hname : q = nd.name
    · subst hname
      cases hput with
      | same old found isfile digest source moved type mem => exact absurd hq ((hinsame mem).2 s)
      | moved old new found source moved type mem =>
          exact ⟨nd, hlast, rfl, old, found, ((mem s).mp hq).symm⟩
      | created source moved type mem =>
          obtain hfile | ⟨hdup, -⟩ := mem
          · exact absurd hq ((hinfile hfile).2.2 s)
          · exact absurd hq (hindup hdup s)
    · obtain ⟨x, hx, hrest⟩ := h.targets s q ((hframe.targets s q hname).mp hq)
      exact ⟨x, hold hx, hrest⟩
  · -- the first of each digest
    rw [hdigests] at hy
    obtain hy | ⟨rfl, hfirst⟩ := mem_addByDigest hy
    · obtain ⟨hydone, hyfile⟩ := h.digests y hy
      rw [hframe.types y.name (hne hydone), hframe.fileList y.name (hne hydone)]
      exact ⟨hold hydone, hyfile⟩
    · refine ⟨hlast, fun htype => ?_⟩
      cases hput with
      | same old found isfile digest source moved type mem =>
          rw [type] at htype
          cases htype
      | moved old new found source moved type mem =>
          rw [type] at htype
          cases htype
      | created source moved type mem =>
          obtain hfile | ⟨-, z, hz, hzne, -⟩ := mem
          · exact hfile
          · rw [hdigests, hfirst] at hz
            exact absurd (congrArg Node.name (Option.some.inj hz)).symm hzne

/-- What `on_directory` does to the new list. -/
theorem onDirectory_target (src : Loaded) (m : Merge) (n : Bytes) :
    ∃ type, (m.onDirectory src n).target = (m.target.appendIndicator n true).setType n type ∧
      (type = .dirNewCreated ∨ ∃ old, src.findNode n = some old ∧ old.isdir = true) := by
  rw [Merge.onDirectory]
  split
  · exact ⟨_, rfl, .inl rfl⟩
  · rename_i old hold
    split
    · exact ⟨_, rfl, .inl rfl⟩
    · rename_i hdir
      exact ⟨_, rfl, .inr ⟨old, hold, by simpa using hdir⟩⟩

theorem Placed.onDirectory {n : Bytes} (h : Placed sha256 src done m.target)
    (hnew : n ∉ done.map Event.name) :
    Placed sha256 src (done ++ [.directory n]) (m.onDirectory src n).target := by
  obtain ⟨type, htarget, htype⟩ := onDirectory_target src m n
  have hframe : m.target.Frame n (m.onDirectory src n).target := by
    rw [htarget]
    exact (frame_appendDirectory _ _).trans (frame_setType _ _ _)
  have hmoved : (m.onDirectory src n).target.moved = m.target.moved := by
    rw [htarget]
    exact moved_removeUser m.target n
  have hne : ∀ {e}, e ∈ done → e.name ≠ n := fun he heq => hnew (heq ▸ mem_map_of_mem he)
  have hold : ∀ {e}, e ∈ done → e ∈ done ++ [.directory n] := mem_append_left _
  -- the directory is in no list of files
  have hsame : ∀ {q}, q ∈ (m.onDirectory src n).target.sameList → q ≠ n := by
    intro q hq
    rw [htarget] at hq
    simpa using (mem_filter.mp hq).2
  have hdup : ∀ {q}, q ∈ (m.onDirectory src n).target.dupList → q ≠ n := by
    intro q hq
    rw [htarget] at hq
    simpa using (mem_filter.mp hq).2
  have hmove : ∀ {s q}, (m.onDirectory src n).target.IsTarget s q → q ≠ n := by
    intro s q hq
    rw [htarget] at hq
    exact ((isTarget_removeUser m.target n).mp hq).2
  refine ⟨hmoved ▸ h.nodup, fun q hq => ?_, fun x hx => ?_, fun q hq => ?_, fun q hq => ?_,
    fun s q hq => ?_, fun y hy => ?_⟩
  · obtain hq | hq := mem_append.mp hq
    · rw [hframe.dirList q (hne hq), hframe.types q (hne hq)]
      exact h.dirs q hq
    · obtain rfl := Event.directory.inj (mem_singleton.mp hq)
      rw [htarget]
      refine ⟨mem_append_right _ mem_cons_self, htype.imp_left fun heq => ?_⟩
      exact (if_pos rfl).trans heq
  · have hx : .file x ∈ done := by simpa using hx
    rw [hframe.count x.name (hne hx)]
    exact h.files x hx
  · obtain ⟨x, hx, hrest⟩ := h.same q ((hframe.sameList q (hsame hq)).mp hq)
    exact ⟨x, hold hx, hrest⟩
  · obtain ⟨x, hx, hxname, y, hy, hyof, hyne, hyfile, hydigest⟩ :=
      h.dups q ((hframe.dupList q (hdup hq)).mp hq)
    refine ⟨x, hold hx, hxname, y, hold hy, ?_, hyne, ?_, hydigest⟩
    · rw [hframe.dupOf q (hdup hq), hyof]
    · exact (hframe.fileList _ (hne hy)).mpr hyfile
  · obtain ⟨x, hx, hrest⟩ := h.targets s q ((hframe.targets s q (hmove hq)).mp hq)
    exact ⟨x, hold hx, hrest⟩
  · rw [htarget] at hy
    obtain ⟨hydone, hyfile⟩ := h.digests y hy
    rw [hframe.types y.name (hne hydone), hframe.fileList y.name (hne hydone)]
    exact ⟨hold hydone, hyfile⟩

/-! ## the old files -/

/-- The lists of the old tree before the scan, as its names and digests find them. -/
structure Starts (sha256 : Bytes → Digest) (src : Loaded) (start : Source) : Prop where
  dirs : ∀ n old, src.findNode n = some old → (n ∈ start.dirList ↔ old.isdir = true)
  files : ∀ n old, src.findNode n = some old → (n ∈ start.fileList ↔ old.isdir = false)
  absent : ∀ n, src.findNode n = none → n ∉ start.dirList ∧ n ∉ start.fileList
  digests : ∀ d old, findDigest sha256 src.digests d = some old → old.name ∈ start.fileList
  disjoint : ∀ n ∈ start.fileList, n ∉ start.dirList

/-- Where the old objects are after the calls `done`. -/
structure Left (sha256 : Bytes → Digest) (src : Loaded) (start : Source) (done : List Event)
    (m : Merge) : Prop where
  dirList : ∀ q, q ∈ m.source.dirList ↔ q ∈ start.dirList ∧ q ∉ done.map Event.name
  fileList : ∀ q, q ∈ m.source.fileList ↔
    q ∈ start.fileList ∧ q ∉ done.map Event.name ∧ q ∉ m.target.moved
  delList : ∀ q ∈ m.source.delList, q ∈ start.fileList ∧ .directory q ∈ done
  gone : ∀ q ∈ start.fileList, .directory q ∈ done → q ∈ m.source.delList ∨ q ∈ m.target.moved
  types : ∀ q ∈ start.dirList, q ∉ done.map Event.name → m.source.types q = .unknown
  siblings : m.source.siblings = start.siblings
  once : Source.Once m.source
  moved : ∀ q, q ∈ m.target.moved ↔ ∃ x, .file x ∈ done ∧ src.findNode x.name = none ∧
    ∃ old, findDigest sha256 src.digests (sha256 x.content) = some old ∧ old.name = q

theorem not_mem_names {q : Bytes} {e : Event} :
    q ∉ (done ++ [e]).map Event.name ↔ q ∉ done.map Event.name ∧ q ≠ e.name := by
  rw [map_append, mem_append, not_or, map_singleton, mem_singleton]

section Steps

variable {start : Source} (hs : Starts sha256 src start) (h : Left sha256 src start done m)

include hs h

/-- A call about a name takes an old node of that name out of its lists, or there is none. -/
theorem Left.removeUser {e : Event} (hnew : e.name ∉ done.map Event.name) {m' : Merge}
    (hsource : (∃ type, m'.source = (m.source.setType e.name type).removeUser e.name) ∨
      m'.source = m.source.removeUser e.name ∨ m'.source = m.source ∧ src.findNode e.name = none)
    (hmoved : m'.target.moved = m.target.moved)
    (hfile : ∀ x, e = .file x → src.findNode x.name = none →
      findDigest sha256 src.digests (sha256 x.content) = none)
    (hdir : e = .directory e.name → e.name ∉ start.fileList) :
    Left sha256 src start (done ++ [e]) m' := by
  -- the lists lose the name, whether it was in them or not
  obtain ⟨hdirs, hfiles, hdels, hkept, htypes, hsiblings, honce⟩ :
      (∀ q, q ∈ m'.source.dirList ↔ q ∈ m.source.dirList ∧ q ≠ e.name) ∧
        (∀ q, q ∈ m'.source.fileList ↔ q ∈ m.source.fileList ∧ q ≠ e.name) ∧
        (∀ q ∈ m'.source.delList, q ∈ m.source.delList) ∧
        (∀ q ∈ m.source.delList, q ≠ e.name → q ∈ m'.source.delList) ∧
        (∀ q, q ≠ e.name → m'.source.types q = m.source.types q) ∧
        m'.source.siblings = m.source.siblings ∧ Source.Once m'.source := by
    obtain ⟨type, hsource⟩ | hsource | ⟨hsource, hnone⟩ := hsource
    · rw [hsource]
      refine ⟨fun q => Source.mem_dirList_removeUser _ _,
        fun q => Source.mem_fileList_removeUser _ _,
        fun q hq => ((Source.mem_delList_removeUser _ _).mp hq).1,
        fun q hq hne => (Source.mem_delList_removeUser _ _).mpr ⟨hq, hne⟩, fun q hq => if_neg hq,
        rfl, (h.once.setType _).removeUser⟩
    · rw [hsource]
      refine ⟨fun q => Source.mem_dirList_removeUser _ _,
        fun q => Source.mem_fileList_removeUser _ _,
        fun q hq => ((Source.mem_delList_removeUser _ _).mp hq).1,
        fun q hq hne => (Source.mem_delList_removeUser _ _).mpr ⟨hq, hne⟩, fun q _ => rfl, rfl,
        h.once.removeUser⟩
    · obtain ⟨hnodir, hnofile⟩ := hs.absent _ hnone
      rw [hsource]
      refine ⟨fun q => ?_, fun q => ?_, fun _ => id, fun _ hq _ => hq, fun _ _ => rfl, rfl, h.once⟩
      · rw [iff_self_and]
        rintro hq rfl
        exact hnodir ((h.dirList _).mp hq).1
      · rw [iff_self_and]
        rintro hq rfl
        exact hnofile ((h.fileList _).mp hq).1
  refine ⟨fun q => ?_, fun q => ?_, fun q hq => ?_, fun q hq hdone => ?_, fun q hq hdone => ?_,
    hsiblings.trans h.siblings, honce, fun q => ?_⟩
  · rw [hdirs, h.dirList, not_mem_names, and_assoc]
  · rw [hfiles, h.fileList, not_mem_names, hmoved]
    tauto
  · obtain ⟨hfile, hdone⟩ := h.delList q (hdels q hq)
    exact ⟨hfile, mem_append_left _ hdone⟩
  · obtain hdone | hdone := mem_append.mp hdone
    · rw [hmoved]
      refine (h.gone q hq hdone).imp_left fun hdel => hkept q hdel ?_
      rintro rfl
      exact hnew (mem_map.mpr ⟨_, hdone, rfl⟩)
    · have heq := mem_singleton.mp hdone
      subst heq
      exact absurd hq (hdir rfl)
  · obtain ⟨hdone, hne⟩ := not_mem_names.mp hdone
    rw [htypes q hne, h.types q hq hdone]
  · rw [hmoved, h.moved]
    constructor
    · rintro ⟨x, hx, hrest⟩
      exact ⟨x, mem_append_left _ hx, hrest⟩
    · rintro ⟨x, hx, hnone, old, hold, rfl⟩
      obtain hx | hx := mem_append.mp hx
      · exact ⟨x, hx, hnone, old, hold, rfl⟩
      · rw [hfile x (mem_singleton.mp hx).symm hnone] at hold
        cases hold

/-- A call for a file. -/
theorem Left.onFile (hnodup : m.target.moved.Nodup) (hnew : nd.name ∉ done.map Event.name) :
    Left sha256 src start (done ++ [.file nd]) (m.onFile sha256 src nd) := by
  obtain ⟨-, -, -, -, hput⟩ := onFile_does sha256 src m nd hnodup
  cases hput with
  | same old found isfile digest source moved type mem =>
      refine h.removeUser hs (e := .file nd) hnew (.inl ⟨_, source⟩) moved (fun x hx hnone => ?_) nofun
      obtain rfl := Event.file.inj hx
      rw [found] at hnone
      cases hnone
  | created source moved type mem =>
      obtain ⟨source, hnone, hdigest⟩ | ⟨source, old, hold⟩ := source
      · refine h.removeUser hs (e := .file nd) hnew (.inr (.inr ⟨source, hnone⟩)) moved
          (fun x hx _ => ?_) nofun
        obtain rfl := Event.file.inj hx
        exact hdigest
      · refine h.removeUser hs (e := .file nd) hnew (.inr (.inl source)) moved
          (fun x hx hnone => ?_) nofun
        obtain rfl := Event.file.inj hx
        rw [hold] at hnone
        cases hnone
  | moved old new found source moved type mem =>
      -- the old file leaves its lists as the source of a move
      obtain ⟨hnodir, hnofile⟩ := hs.absent _ new
      have hfile := hs.digests _ _ found
      have hdir := hs.disjoint _ hfile
      refine ⟨fun q => ?_, fun q => ?_, fun q hq => ?_, fun q hq hdone => ?_, fun q hq hdone => ?_,
        ?_, ?_, fun q => ?_⟩
      · rw [source, Source.mem_dirList_removeUser, not_mem_names]
        show q ∈ m.source.dirList ∧ _ ↔ _
        rw [h.dirList]
        constructor
        · rintro ⟨⟨hq, hdone⟩, -⟩
          exact ⟨hq, hdone, fun (heq : q = nd.name) => hnodir (heq ▸ hq)⟩
        · rintro ⟨hq, hdone, -⟩
          exact ⟨⟨hq, hdone⟩, fun heq => hdir (heq ▸ hq)⟩
      · rw [source, Source.mem_fileList_removeUser, not_mem_names, moved, not_or]
        show q ∈ m.source.fileList ∧ _ ↔ _
        rw [h.fileList]
        constructor
        · rintro ⟨⟨hq, hdone, hnot⟩, hne⟩
          exact ⟨hq, ⟨hdone, fun (heq : q = nd.name) => hnofile (heq ▸ hq)⟩, hnot, hne⟩
        · rintro ⟨hq, ⟨hdone, -⟩, hnot, hne⟩
          exact ⟨⟨hq, hdone, hnot⟩, hne⟩
      · rw [source, Source.mem_delList_removeUser] at hq
        obtain ⟨hq, hdone⟩ := h.delList q hq.1
        exact ⟨hq, mem_append_left _ hdone⟩
      · have hdone : .directory q ∈ done := by simpa using hdone
        rw [source, Source.mem_delList_removeUser, moved]
        obtain hdel | hdel := h.gone q hq hdone
        · by_cases heq : q = old.name
          · exact .inr (.inr heq)
          · exact .inl ⟨hdel, heq⟩
        · exact .inr (.inl hdel)
      · rw [source]
        refine (if_neg ?_).trans (h.types q hq (not_mem_names.mp hdone).1)
        rintro rfl
        exact hdir hq
      · rw [source]
        exact h.siblings
      · rw [source]
        exact (h.once.setType _).removeUser
      · rw [moved, h.moved]
        constructor
        · rintro (⟨x, hx, hrest⟩ | rfl)
          · exact ⟨x, mem_append_left _ hx, hrest⟩
          · exact ⟨nd, mem_append_right _ mem_cons_self, new, old, found, rfl⟩
        · rintro ⟨x, hx, hnone, other, hother, rfl⟩
          obtain hx | hx := mem_append.mp hx
          · exact .inl ⟨x, hx, hnone, other, hother, rfl⟩
          · obtain rfl := Event.file.inj (mem_singleton.mp hx)
            rw [found] at hother
            exact .inr (congrArg Node.name (Option.some.inj hother)).symm

/-- A call for a directory. -/
theorem Left.onDirectory {n : Bytes} (hnew : n ∉ done.map Event.name) :
    Left sha256 src start (done ++ [.directory n]) (m.onDirectory src n) := by
  have hmoved : (m.onDirectory src n).target.moved = m.target.moved := by
    obtain ⟨type, htarget, -⟩ := onDirectory_target src m n
    rw [htarget]
    exact moved_removeUser m.target n
  cases hfound : src.findNode n with
  | none =>
      refine h.removeUser hs (e := .directory n) hnew (.inr (.inr ⟨?_, hfound⟩)) hmoved nofun
        fun _ => (hs.absent n hfound).2
      rw [Merge.onDirectory, hfound]
  | some old =>
      cases hdir : old.isdir with
      | true =>
          refine h.removeUser hs (e := .directory n) hnew (.inl ⟨.dirTheSame, ?_⟩) hmoved nofun
            fun _ hfile => ?_
          · rw [Merge.onDirectory, hfound]
            simp only [hdir]
            rfl
          · rw [(hs.files n old hfound).mp hfile] at hdir
            cases hdir
      | false =>
          -- a file becomes a directory
          have hfile := (hs.files n old hfound).mpr hdir
          have hnodir := hs.disjoint n hfile
          have hsource : (m.onDirectory src n).source =
              (m.source.setType n .fileDeleted).appendDel n := by
            rw [Merge.onDirectory, hfound]
            simp only [hdir]
            rfl
          refine ⟨fun q => ?_, fun q => ?_, fun q hq => ?_, fun q hq hdone => ?_,
            fun q hq hdone => ?_, ?_, ?_, fun q => ?_⟩
          · rw [hsource, Source.mem_dirList_appendDel, not_mem_names, ← and_assoc]
            exact and_congr_left fun _ => h.dirList q
          · rw [hsource, Source.mem_fileList_appendDel, not_mem_names, hmoved]
            show q ∈ m.source.fileList ∧ q ≠ n ↔ _ ∧ (_ ∧ q ≠ n) ∧ _
            rw [h.fileList]
            tauto
          · rw [hsource, Source.mem_delList_appendDel] at hq
            obtain hq | rfl := hq
            · obtain ⟨hq, hdone⟩ := h.delList q hq
              exact ⟨hq, mem_append_left _ hdone⟩
            · exact ⟨hfile, mem_append_right _ mem_cons_self⟩
          · rw [hsource, Source.mem_delList_appendDel, hmoved]
            obtain hdone | hdone := mem_append.mp hdone
            · exact (h.gone q hq hdone).imp_left .inl
            · exact .inl (.inr (Event.directory.inj (mem_singleton.mp hdone)))
          · rw [hsource]
            obtain ⟨hdone, hne⟩ := not_mem_names.mp hdone
            exact (if_neg hne).trans (h.types q hq hdone)
          · rw [hsource]
            exact h.siblings
          · rw [hsource]
            exact (h.once.setType _).appendDel
          · rw [hmoved, h.moved]
            simp

end Steps

/-! ## the scan -/

theorem Placed.new (sha256 : Bytes → Digest) (src : Loaded) : Placed sha256 src [] .new := by
  refine ⟨nodup_nil, nofun, nofun, nofun, nofun, ?_, nofun⟩
  rintro s q ⟨info, hinfo, -⟩
  cases hinfo

theorem Left.new (sha256 : Bytes → Digest) (src : Loaded) {start : Source}
    (honce : Source.Once start) (hdels : start.delList = [])
    (htypes : ∀ q, start.types q = .unknown) : Left sha256 src start [] ⟨start, .new⟩ := by
  refine ⟨fun q => ?_, fun q => ?_, fun q hq => ?_, nofun, fun q _ _ => htypes q, rfl, honce,
    fun q => ?_⟩
  · simp
  · simp [Target.moved, Target.new]
  · rw [show (Merge.mk start .new).source.delList = [] from hdels] at hq
    cases hq
  · simp [Target.moved, Target.new]

/-- What holds of both lists after any calls that are about different names. -/
theorem scan_does {start : Source} (hs : Starts sha256 src start) (rest : List Event)
    (hplaced : Placed sha256 src done m.target) (hleft : Left sha256 src start done m)
    (hnodup : ((done ++ rest).map Event.name).Nodup) :
    Placed sha256 src (done ++ rest) (rest.foldl (Merge.handle sha256 src) m).target ∧
      Left sha256 src start (done ++ rest) (rest.foldl (Merge.handle sha256 src) m) := by
  induction rest generalizing done m with
  | nil =>
      rw [append_nil]
      exact ⟨hplaced, hleft⟩
  | cons e rest ih =>
      have hassoc : done ++ e :: rest = (done ++ [e]) ++ rest := append_cons done e rest
      have hnew : e.name ∉ done.map Event.name := by
        rw [map_append, nodup_append] at hnodup
        exact fun hmem => hnodup.2.2 _ hmem _ mem_cons_self rfl
      rw [hassoc] at hnodup ⊢
      cases e with
      | directory n => exact ih (hplaced.onDirectory hnew) (hleft.onDirectory hs hnew) hnodup
      | file nd => exact ih (hplaced.onFile hnew) (hleft.onFile hs hplaced.nodup hnew) hnodup

end V2I.Ota
