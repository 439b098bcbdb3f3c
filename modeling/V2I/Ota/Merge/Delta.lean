import V2I.Ota.Merge.Scan

/-!
# V2I.Ota.Merge.Delta

Whether a delta describes the step from the old tree to the new one. It does unless a directory of
the old tree is a file in the new one, which nobody deletes, or a file of the new tree is taken from
an old one that stays where it is: by digest only the file with the first name is found.
-/

namespace V2I.Ota

open List

variable {sha256 : Bytes → Digest} {oldRoot newRoot : PlainRoot} {old new : Tree} {m : Merge}
  {x y : Node}

/-- A delta describes the step from the old tree to the new one. -/
structure Describes (oldRoot newRoot : PlainRoot) (old new : Tree) (m : Merge) : Prop where
  gone : ∀ x ∈ old.nodes oldRoot.val,
    (¬ ∃ y ∈ new.nodes newRoot.val, y.name = x.name ∧ y.isdir = x.isdir) →
      m.source.delList.countP (Covers · x.name) = 1 ∨ x.name ∈ m.target.moved
  kept : ∀ x ∈ old.nodes oldRoot.val, x.isdir = false →
    (∃ y ∈ new.nodes newRoot.val, y.isdir = false ∧ y.name = x.name ∧ y.content = x.content) →
      (∀ d ∈ m.source.delList, ¬ Covers d x.name) ∧ x.name ∉ m.target.moved
  newDirs : ∀ y ∈ new.nodes newRoot.val, y.isdir = true →
    (¬ ∃ x ∈ old.nodes oldRoot.val, x.name = y.name ∧ x.isdir = true) →
      y.name ∈ m.target.dirList ∧ m.target.types y.name = .dirNewCreated
  newFiles : ∀ y ∈ new.nodes newRoot.val, y.isdir = false → m.target.places.count y.name = 1
  same : ∀ q ∈ m.target.sameList, ∃ y ∈ new.nodes newRoot.val, y.isdir = false ∧ y.name = q ∧
    ∃ x ∈ old.nodes oldRoot.val, x.isdir = false ∧ x.name = q ∧ x.content = y.content
  dups : ∀ q ∈ m.target.dupList, ∃ y ∈ new.nodes newRoot.val, y.isdir = false ∧ y.name = q ∧
    ∃ z ∈ new.nodes newRoot.val, z.isdir = false ∧ m.target.dupOf q = some z.name ∧ z.name ≠ q ∧
      z.name ∈ m.target.fileList ∧ z.content = y.content
  targets : ∀ s q, m.target.IsTarget s q → ∃ y ∈ new.nodes newRoot.val, y.isdir = false ∧
    y.name = q ∧ ∃ x ∈ old.nodes oldRoot.val, x.isdir = false ∧ x.name = s ∧ x.content = y.content

/-- No directory becomes a file, and no file that is new where it is has the content of an old file
that stays, the old one being the first of its content in the order of the names. -/
structure Plain (oldRoot newRoot : PlainRoot) (old new : Tree) : Prop where
  dirs : ∀ x ∈ old.nodes oldRoot.val, x.isdir = true →
    ∀ y ∈ new.nodes newRoot.val, y.name = x.name → y.isdir = true
  moves : ∀ y ∈ new.nodes newRoot.val, y.isdir = false →
    (∀ x ∈ old.nodes oldRoot.val, x.name ≠ y.name) →
      ∀ x ∈ old.nodes oldRoot.val, x.isdir = false → x.content = y.content →
        (∀ z ∈ old.nodes oldRoot.val, z.isdir = false → z.content = y.content →
          ¬ z.name < x.name) →
        ¬ ∃ z ∈ new.nodes newRoot.val, z.isdir = false ∧ z.name = x.name ∧ z.content = x.content

/-- The contents of the files of both trees have different digests. -/
def Injective (sha256 : Bytes → Digest) (oldRoot newRoot : PlainRoot) (old new : Tree) : Prop :=
  ∀ x ∈ old.nodes oldRoot.val ++ new.nodes newRoot.val, x.isdir = false →
    ∀ y ∈ old.nodes oldRoot.val ++ new.nodes newRoot.val, y.isdir = false →
      sha256 x.content = sha256 y.content → x.content = y.content

/-! ## names -/

/-- A name says in which directory it is. -/
theorem parents_eq_of_name (hx : x ∈ old.nodes oldRoot.val) (hy : y ∈ new.nodes newRoot.val)
    (heq : x.name = y.name) : x.parents = y.parents := by
  have hsplit : ∀ {p n p' n' : Bytes}, slash ∉ n → slash ∉ n' →
      p ++ slash :: n = p' ++ slash :: n' → p = p' := by
    intro p n p' n' hn hn' heq
    have hcovers : Covers p p' := (slash_prefix_iff hn').mp ⟨n, by rw [← heq]; simp⟩
    have hcovers' : Covers p' p := (slash_prefix_iff hn).mp ⟨n', by rw [heq]; simp⟩
    obtain rfl | hle := hcovers
    · rfl
    obtain rfl | hle' := hcovers'
    · rfl
    have hlen := hle.length_le
    have hlen' := hle'.length_le
    rw [length_append, length_singleton] at hlen hlen'
    omega
  obtain ⟨hxpar, n, hn, hxname⟩ | ⟨⟨p, hp, -, hpname⟩, n, hn, hxname⟩ := Tree.parents_nodes hx
  · obtain ⟨hypar, -⟩ | ⟨⟨p, hp, -, hpname⟩, n', hn', hyname⟩ := Tree.parents_nodes hy
    · rw [hxpar, hypar]
    · have hnil : [] = y.parents :=
        hsplit hn.no_slash hn'.no_slash ((hxname.symm.trans heq).trans hyname)
      have hlen := Tree.one_lt_length hp
      rw [hpname, ← hnil] at hlen
      cases hlen
  · obtain ⟨-, n', hn', hyname⟩ | ⟨-, n', hn', hyname⟩ := Tree.parents_nodes hy
    · have hnil : x.parents = [] :=
        hsplit hn.no_slash hn'.no_slash ((hxname.symm.trans heq).trans hyname)
      have hlen := Tree.one_lt_length hp
      rw [hpname, hnil] at hlen
      cases hlen
    · exact hsplit hn.no_slash hn'.no_slash ((hxname.symm.trans heq).trans hyname)

/-- The names that the listener is called about. -/
def calledNames (newRoot : PlainRoot) (new : Tree) : List Bytes :=
  (events newRoot.val new).map Event.name

variable {n : Bytes}

theorem mem_calledNames :
    n ∈ calledNames newRoot new ↔ n = [slash] ∨ ∃ y ∈ new.nodes newRoot.val, y.name = n := by
  rw [calledNames, mem_map]
  constructor
  · rintro ⟨e, he, rfl⟩
    cases e with
    | directory n =>
        refine (directory_mem_events.mp he).imp_right ?_
        rintro ⟨y, hy, -, hname⟩
        exact ⟨y, hy, hname⟩
    | file nd => exact .inr ⟨nd, (file_mem_events.mp he).1, rfl⟩
  · rintro (rfl | ⟨y, hy, rfl⟩)
    · exact ⟨_, directory_mem_events.mpr (.inl rfl), rfl⟩
    · cases hdir : y.isdir with
      | true => exact ⟨_, directory_mem_events.mpr (.inr ⟨y, hy, hdir, rfl⟩), rfl⟩
      | false => exact ⟨_, file_mem_events.mpr ⟨hy, hdir⟩, rfl⟩

theorem name_ne_root (hx : x ∈ old.nodes oldRoot.val) : x.name ≠ [slash] := by
  intro heq
  have hlen := Tree.one_lt_length hx
  rw [heq] at hlen
  exact absurd hlen (by decide)

theorem mem_calledNames_iff (hx : x ∈ old.nodes oldRoot.val) :
    x.name ∈ calledNames newRoot new ↔ ∃ y ∈ new.nodes newRoot.val, y.name = x.name := by
  rw [mem_calledNames, or_iff_right (name_ne_root hx)]

/-- What lies in a directory that the listener is not called about is not in the new tree. -/
theorem parents_mem_calledNames (hx : x ∈ old.nodes oldRoot.val)
    (hmem : x.name ∈ calledNames newRoot new) : x.parents ∈ calledNames newRoot new := by
  obtain ⟨y, hy, hname⟩ := (mem_calledNames_iff hx).mp hmem
  rw [parents_eq_of_name hx hy hname.symm]
  obtain ⟨hpar, -⟩ | ⟨⟨z, hz, -, hzname⟩, -⟩ := Tree.parents_nodes hy
  · exact mem_calledNames.mpr (.inl hpar)
  · exact mem_calledNames.mpr (.inr ⟨z, hz, hzname⟩)

/-! ## the lists before the scan -/

theorem mem_new_dirList :
    n ∈ (Source.new oldRoot.val old).dirList ↔
      n = [slash] ∨ ∃ x ∈ old.nodes oldRoot.val, x.isdir = true ∧ x.name = n := by
  rw [show (Source.new oldRoot.val old).dirList = (loaddir oldRoot.val.val old.val).map Visit.name
    from rfl, (visits_name_does oldRoot old).mem_iff, mem_cons, mem_dirNames]

theorem mem_new_fileList :
    n ∈ (Source.new oldRoot.val old).fileList ↔
      ∃ x ∈ old.nodes oldRoot.val, x.isdir = false ∧ x.name = n := by
  show n ∈ ((created oldRoot.val old).filter fun nd => !nd.isdir).map Node.name ↔ _
  rw [mem_map]
  simp only [mem_filter, (created_perm oldRoot.val old).mem_iff, Bool.not_eq_true', and_assoc]

theorem Loaded.Holds.findNode_new {src : Loaded} (h : src.Holds sha256 oldRoot old)
    (hx : x ∈ old.nodes oldRoot.val) : src.findNode x.name = some x :=
  h.findNode_eq_some.mpr ⟨(h.mem x).mpr (.inr hx), rfl⟩

theorem Loaded.Holds.starts {src : Loaded} (h : src.Holds sha256 oldRoot old) :
    Starts sha256 src (.new oldRoot.val old) := by
  have hdisjoint : ∀ n ∈ (Source.new oldRoot.val old).fileList,
      n ∉ (Source.new oldRoot.val old).dirList := by
    intro n hfile hdir
    obtain ⟨x, hx, hxfile, rfl⟩ := mem_new_fileList.mp hfile
    obtain heq | ⟨y, hy, hydir, heq⟩ := mem_new_dirList.mp hdir
    · exact name_ne_root hx heq
    · obtain rfl := Tree.eq_of_name hy hx heq
      rw [hxfile] at hydir
      cases hydir
  have hdirs : ∀ n x, src.findNode n = some x → x.isdir = true →
      n ∈ (Source.new oldRoot.val old).dirList := by
    intro n x hfound hdir
    obtain ⟨hx, rfl⟩ := h.findNode_eq_some.mp hfound
    obtain rfl | hx := (h.mem x).mp hx
    · exact mem_new_dirList.mpr (.inl (rootNode_name oldRoot))
    · exact mem_new_dirList.mpr (.inr ⟨x, hx, hdir, rfl⟩)
  have hfiles : ∀ n x, src.findNode n = some x → x.isdir = false →
      n ∈ (Source.new oldRoot.val old).fileList := by
    intro n x hfound hfile
    obtain ⟨hx, rfl⟩ := h.findNode_eq_some.mp hfound
    obtain rfl | hx := (h.mem x).mp hx
    · cases hfile
    · exact mem_new_fileList.mpr ⟨x, hx, hfile, rfl⟩
  refine ⟨fun n x hfound => ⟨fun hdir => ?_, hdirs n x hfound⟩,
    fun n x hfound => ⟨fun hfile => ?_, hfiles n x hfound⟩, fun n hnone => ⟨fun hdir => ?_,
    fun hfile => ?_⟩, fun d x hfound => ?_, hdisjoint⟩
  · by_contra hfile
    exact hdisjoint n (hfiles n x hfound (eq_false_of_ne_true hfile)) hdir
  · by_contra hdir
    exact hdisjoint n hfile (hdirs n x hfound (eq_true_of_ne_false hdir))
  · obtain rfl | ⟨x, hx, -, rfl⟩ := mem_new_dirList.mp hdir
    · exact h.findNode_eq_none.mp hnone _ ((h.mem _).mpr (.inl rfl)) (rootNode_name oldRoot)
    · rw [h.findNode_new hx] at hnone
      cases hnone
  · obtain ⟨x, hx, -, rfl⟩ := mem_new_fileList.mp hfile
    rw [h.findNode_new hx] at hnone
    cases hnone
  · obtain ⟨hx, hfile, -⟩ := h.findDigest_eq_some.mp hfound
    exact mem_new_fileList.mpr ⟨x, hx, hfile, rfl⟩

theorem once_new (oldRoot : PlainRoot) (old : Tree) : Source.Once (.new oldRoot.val old) := by
  have hnodup := nodup_created oldRoot.val old
  refine ⟨?_, ?_, nodup_nil⟩
  · show ((loaddir oldRoot.val.val old.val).map Visit.name).Nodup
    have hevents := nodup_events oldRoot old
    rw [((events_perm oldRoot old).map Event.name).nodup_iff, map_append, map_map] at hevents
    rw [(visits_name_does oldRoot old).nodup_iff, ← map_id ([slash] :: _)]
    exact (nodup_append.mp hevents).1
  · rw [map_cons, nodup_cons] at hnodup
    exact hnodup.2.sublist (filter_sublist.map Node.name)

/-! ## after the scan -/

/-- What is known when `rescan_delete_objects` is called. -/
structure Ready (sha256 : Bytes → Digest) (oldRoot newRoot : PlainRoot) (old new : Tree)
    (src : Loaded) (m : Merge) : Prop where
  holds : src.Holds sha256 oldRoot old
  placed : Placed sha256 src (events newRoot.val new) m.target
  left : Left sha256 src (.new oldRoot.val old) (events newRoot.val new) m

/-- The scan of two trees that can be loaded ends with what is known then. -/
theorem findDelta_ready (sha256 : Bytes → Digest) (oldRoot newRoot : PlainRoot) (old new : Tree) :
    ∃ src m, Ready sha256 oldRoot newRoot old new src m ∧
      findDelta sha256 oldRoot.val newRoot.val old new =
        some { m with source := m.source.rescanDeleteObjects } := by
  obtain ⟨src, hsrc, hholds⟩ := loadNames_does sha256 oldRoot old
  obtain ⟨names, hnames, -⟩ := insertAll_does (nodup_created newRoot.val new)
  have hscan := scan_does hholds.starts (events newRoot.val new) (Placed.new sha256 src)
    (Left.new sha256 src (once_new oldRoot old) rfl fun _ => rfl) (nodup_events newRoot new)
  refine ⟨src, _, ⟨hholds, hscan.1, hscan.2⟩, ?_⟩
  rw [findDelta, hsrc, hnames]
  rfl

namespace Ready

variable {src : Loaded} (h : Ready sha256 oldRoot newRoot old new src m)

include h

/-- The directories that are not in the new tree. -/
theorem dirList_iff (hx : x ∈ old.nodes oldRoot.val) :
    x.name ∈ m.source.dirList ↔
      x.isdir = true ∧ ¬ ∃ y ∈ new.nodes newRoot.val, y.name = x.name := by
  rw [h.left.dirList, ← mem_calledNames_iff hx]
  refine and_congr_left fun _ => ?_
  exact h.holds.starts.dirs _ x (h.holds.findNode_new hx)

/-- The files that are not in the new tree, the sources of moves apart. -/
theorem files_iff (hx : x ∈ old.nodes oldRoot.val) (hmoved : x.name ∉ m.target.moved) :
    x.name ∈ m.source.delList ++ m.source.fileList ↔
      x.isdir = false ∧ ¬ ∃ y ∈ new.nodes newRoot.val, y.name = x.name ∧ y.isdir = false := by
  have hfile := h.holds.starts.files _ x (h.holds.findNode_new hx)
  rw [mem_append, h.left.fileList, hfile]
  constructor
  · rintro (hdel | ⟨hxfile, hnot, -⟩)
    · obtain ⟨hxfile, hdone⟩ := h.left.delList _ hdel
      refine ⟨hfile.mp hxfile, ?_⟩
      rintro ⟨y, hy, hname, hyfile⟩
      obtain heq | ⟨z, hz, hzdir, hzname⟩ := directory_mem_events.mp hdone
      · exact name_ne_root hx heq
      · obtain rfl := Tree.eq_of_name hz hy (hzname.trans hname.symm)
        rw [hzdir] at hyfile
        cases hyfile
    · refine ⟨hxfile, ?_⟩
      rintro ⟨y, hy, hname, -⟩
      exact hnot ((mem_calledNames_iff hx).mpr ⟨y, hy, hname⟩)
  · rintro ⟨hxfile, hnot⟩
    by_cases hcalled : x.name ∈ calledNames newRoot new
    · obtain ⟨y, hy, hname⟩ := (mem_calledNames_iff hx).mp hcalled
      have hydir : y.isdir = true := eq_true_of_ne_false fun hyfile => hnot ⟨y, hy, hname, hyfile⟩
      refine .inl ((h.left.gone _ (hfile.mpr hxfile) ?_).resolve_right hmoved)
      exact directory_mem_events.mpr (.inr ⟨y, hy, hydir, hname⟩)
    · exact .inr ⟨hxfile, hcalled, hmoved⟩

theorem parents_not_mem (hx : x ∈ old.nodes oldRoot.val) (hy : y ∈ new.nodes newRoot.val)
    (hname : y.name = x.name) : x.parents ∉ m.source.dirList := by
  intro hmem
  have hcalled := (mem_calledNames_iff hx).mpr ⟨y, hy, hname⟩
  exact ((h.left.dirList _).mp hmem).2 (parents_mem_calledNames hx hcalled)

theorem isdir_of_dirList {q : Bytes} (hq : q ∈ m.source.dirList) :
    ∃ x ∈ old.nodes oldRoot.val, x.isdir = true ∧ x.name = q := by
  obtain ⟨hstart, hnot⟩ := (h.left.dirList q).mp hq
  obtain rfl | hx := mem_new_dirList.mp hstart
  · exact absurd (mem_calledNames.mpr (.inl rfl)) hnot
  · exact hx

theorem isfile_of_files {q : Bytes} (hq : q ∈ m.source.delList ++ m.source.fileList) :
    ∃ x ∈ old.nodes oldRoot.val, x.isdir = false ∧ x.name = q := by
  obtain hq | hq := mem_append.mp hq
  · exact mem_new_fileList.mp (h.left.delList q hq).1
  · exact mem_new_fileList.mp ((h.left.fileList q).mp hq).1

theorem below (hx : x ∈ old.nodes oldRoot.val) (hdir : x.isdir = true)
    (hpar : x.parents ∈ m.source.dirList) : x.name ∈ m.source.dirList := by
  rw [h.dirList_iff hx]
  refine ⟨hdir, ?_⟩
  rintro ⟨y, hy, hname⟩
  exact h.parents_not_mem hx hy hname hpar

/-- The deleted table has the topmost of what is not needed. -/
theorem topmost : Topmost oldRoot old m.source.dirList (m.source.delList ++ m.source.fileList)
    m.source.rescanDeleteObjects.delList := by
  have hmem : ∀ {x}, x ∈ created oldRoot.val old ↔ x ∈ old.nodes oldRoot.val :=
    (created_perm oldRoot.val old).mem_iff
  have hscanned : Source.Scanned (created oldRoot.val old) m.source := by
    refine ⟨h.left.siblings, fun x hx hname => ?_, fun q hq => ?_, h.left.once,
      fun q hfile hdel => ?_⟩
    · obtain ⟨hstart, hnot⟩ := (h.left.dirList _).mp hname
      exact h.left.types _ hstart hnot
    · obtain ⟨x, hx, hrest⟩ := h.isfile_of_files (mem_append.mpr hq.symm)
      exact ⟨x, hmem.mpr hx, hrest⟩
    · obtain ⟨-, hnot, -⟩ := (h.left.fileList q).mp hfile
      exact hnot (mem_map.mpr ⟨_, (h.left.delList q hdel).2, rfl⟩)
  have huseless : Source.Useless (created oldRoot.val old) m.source.dirList := by
    refine ⟨?_, fun q hq => ?_, fun x hx => h.below (hmem.mp hx)⟩
    · have hnodup := nodup_created oldRoot.val old
      exact (nodup_cons.mp hnodup).2
    · obtain ⟨x, hx, hrest⟩ := h.isdir_of_dirList hq
      exact ⟨x, hmem.mpr hx, hrest⟩
  obtain ⟨hnodup, hdels⟩ := hscanned.rescanDeleteObjects huseless
  refine ⟨fun q => h.isdir_of_dirList, fun q => h.isfile_of_files, fun x => h.below, fun q => ?_,
    hnodup⟩
  rw [hdels]
  simp only [hmem]

/-- A file is the source of a move when it is the first of its content, and a new file has that. -/
theorem moved_iff (hinj : Injective sha256 oldRoot newRoot old new)
    (hx : x ∈ old.nodes oldRoot.val) (hfile : x.isdir = false) :
    x.name ∈ m.target.moved ↔ ∃ y ∈ new.nodes newRoot.val, y.isdir = false ∧
      (∀ z ∈ old.nodes oldRoot.val, z.name ≠ y.name) ∧ x.content = y.content ∧
        ∀ z ∈ old.nodes oldRoot.val, z.isdir = false → z.content = y.content →
          ¬ z.name < x.name := by
  rw [h.left.moved]
  constructor
  · rintro ⟨y, hy, hnone, z, hz, hname⟩
    obtain ⟨hy, hyfile⟩ := file_mem_events.mp hy
    obtain ⟨hz, hzfile, hdigest, hfirst⟩ := h.holds.findDigest_eq_some.mp hz
    obtain rfl := Tree.eq_of_name hz hx hname
    refine ⟨y, hy, hyfile, fun w hw => ?_, ?_, fun w hw hwfile hwcontent => ?_⟩
    · exact h.holds.findNode_eq_none.mp hnone w ((h.holds.mem w).mpr (.inr hw))
    · exact hinj z (mem_append_left _ hz) hzfile y (mem_append_right _ hy) hyfile hdigest
    · exact hfirst w hw hwfile (congrArg sha256 hwcontent)
  · rintro ⟨y, hy, hyfile, hnew, hcontent, hfirst⟩
    refine ⟨y, file_mem_events.mpr ⟨hy, hyfile⟩, ?_, x, ?_, rfl⟩
    · refine h.holds.findNode_eq_none.mpr fun z hz => ?_
      obtain rfl | hz := (h.holds.mem z).mp hz
      · rw [rootNode_name]
        exact (name_ne_root hy).symm
      · exact hnew z hz
    · refine h.holds.findDigest_eq_some.mpr ⟨hx, hfile, congrArg sha256 hcontent,
        fun z hz hzfile hzdigest => hfirst z hz hzfile ?_⟩
      exact hinj z (mem_append_left _ hz) hzfile y (mem_append_right _ hy) hyfile hzdigest

/-- The deltas of trees that are plain describe the step. -/
theorem describes (hinj : Injective sha256 oldRoot newRoot old new)
    (hplain : Plain oldRoot newRoot old new) :
    Describes oldRoot newRoot old new { m with source := m.source.rescanDeleteObjects } := by
  have htop := h.topmost
  have hnewfile : ∀ {q y}, .file y ∈ events newRoot.val new → y.name = q →
      y ∈ new.nodes newRoot.val ∧ y.isdir = false ∧ y.name = q := fun hy hname =>
    ⟨(file_mem_events.mp hy).1, (file_mem_events.mp hy).2, hname⟩
  refine ⟨fun x hx hgone => ?_, fun x hx hfile => ?_, fun y hy hdir hnew => ?_,
    fun y hy hfile => h.placed.files y (file_mem_events.mpr ⟨hy, hfile⟩), fun q hq => ?_,
    fun q hq => ?_, fun s q hq => ?_⟩
  · -- what is gone is a directory of no name in the new tree, or a file of no file there
    cases hdir : x.isdir with
    | true =>
        refine .inl (htop.countP hx (.inl ((h.dirList_iff hx).mpr ⟨hdir, ?_⟩)))
        rintro ⟨y, hy, hname⟩
        exact hgone ⟨y, hy, hname, (hplain.dirs x hx hdir y hy hname).trans hdir.symm⟩
    | false =>
        by_cases hmoved : x.name ∈ m.target.moved
        · exact .inr hmoved
        · refine .inl (htop.countP hx (.inr ((h.files_iff hx hmoved).mpr ⟨hdir, ?_⟩)))
          rintro ⟨y, hy, hname, hyfile⟩
          exact hgone ⟨y, hy, hname, hyfile.trans hdir.symm⟩
  · rintro ⟨y, hy, hyfile, hname, hcontent⟩
    have hmoved : x.name ∉ m.target.moved := by
      rw [h.moved_iff hinj hx hfile]
      rintro ⟨z, hz, hzfile, hznew, hzcontent, hfirst⟩
      exact hplain.moves z hz hzfile hznew x hx hfile hzcontent hfirst
        ⟨y, hy, hyfile, hname, hcontent⟩
    refine ⟨htop.not_covers x hx (h.parents_not_mem hx hy hname) (fun hmem => ?_) (fun hmem => ?_),
      hmoved⟩
    · exact ((h.dirList_iff hx).mp hmem).2 ⟨y, hy, hname⟩
    · exact ((h.files_iff hx hmoved).mp hmem).2 ⟨y, hy, hname, hyfile⟩
  · obtain ⟨hmem, htype | ⟨x, hx, hxdir⟩⟩ :=
      h.placed.dirs y.name (directory_mem_events.mpr (.inr ⟨y, hy, hdir, rfl⟩))
    · exact ⟨hmem, htype⟩
    · obtain ⟨hx, hname⟩ := h.holds.findNode_eq_some.mp hx
      obtain rfl | hx := (h.holds.mem x).mp hx
      · exact absurd (hname.symm.trans (rootNode_name oldRoot)) (name_ne_root hy)
      · exact absurd ⟨x, hx, hname, hxdir⟩ hnew
  · obtain ⟨y, hy, hname, x, hx, hxfile, hdigest⟩ := h.placed.same q hq
    obtain ⟨hy, hyfile, hname⟩ := hnewfile hy hname
    obtain ⟨hx, hxname⟩ := h.holds.findNode_eq_some.mp hx
    obtain rfl | hx := (h.holds.mem x).mp hx
    · cases hxfile
    · exact ⟨y, hy, hyfile, hname, x, hx, hxfile, hxname,
        hinj x (mem_append_left _ hx) hxfile y (mem_append_right _ hy) hyfile hdigest⟩
  · obtain ⟨y, hy, hname, z, hz, hof, hne, hzlist, hdigest⟩ := h.placed.dups q hq
    obtain ⟨hy, hyfile, hname⟩ := hnewfile hy hname
    obtain ⟨hz, hzfile, -⟩ := hnewfile hz rfl
    exact ⟨y, hy, hyfile, hname, z, hz, hzfile, hof, hne, hzlist,
      hinj z (mem_append_right _ hz) hzfile y (mem_append_right _ hy) hyfile hdigest⟩
  · obtain ⟨y, hy, hname, x, hx, hxname⟩ := h.placed.targets s q hq
    obtain ⟨hy, hyfile, hname⟩ := hnewfile hy hname
    obtain ⟨hx, hxfile, hdigest, -⟩ := h.holds.findDigest_eq_some.mp hx
    exact ⟨y, hy, hyfile, hname, x, hx, hxfile, hxname,
      hinj x (mem_append_left _ hx) hxfile y (mem_append_right _ hy) hyfile hdigest⟩

/-- A directory that becomes a file is not deleted. -/
theorem not_describes_of_dir (hx : x ∈ old.nodes oldRoot.val) (hdir : x.isdir = true)
    (hy : y ∈ new.nodes newRoot.val) (hname : y.name = x.name) (hfile : y.isdir = false) :
    ¬ Describes oldRoot newRoot old new { m with source := m.source.rescanDeleteObjects } := by
  intro hdescribes
  have htop := h.topmost
  obtain hcount | hmoved := hdescribes.gone x hx (by
    rintro ⟨z, hz, hzname, hzdir⟩
    obtain rfl := Tree.eq_of_name hz hy (hzname.trans hname.symm)
    rw [hfile, hdir] at hzdir
    cases hzdir)
  · obtain ⟨d, hd, hcovers⟩ := countP_pos_iff.mp (hcount.symm ▸ Nat.one_pos)
    refine htop.not_covers x hx (h.parents_not_mem hx hy hname) (fun hmem => ?_)
      (htop.not_mem_files hx hdir) d hd (of_decide_eq_true hcovers)
    exact ((h.dirList_iff hx).mp hmem).2 ⟨y, hy, hname⟩
  · obtain ⟨_, _, _, z, hz, hzname⟩ := (h.left.moved _).mp hmoved
    obtain ⟨hz, hzfile, -⟩ := h.holds.findDigest_eq_some.mp hz
    obtain rfl := Tree.eq_of_name hz hx hzname
    rw [hdir] at hzfile
    cases hzfile

end Ready

/-- A delta describes the step exactly where the trees are plain. -/
theorem findDelta_describes_iff (sha256 : Bytes → Digest) (oldRoot newRoot : PlainRoot)
    (old new : Tree) (hinj : Injective sha256 oldRoot newRoot old new) :
    ∃ m, findDelta sha256 oldRoot.val newRoot.val old new = some m ∧
      (Describes oldRoot newRoot old new m ↔ Plain oldRoot newRoot old new) := by
  obtain ⟨src, m, h, hdelta⟩ := findDelta_ready sha256 oldRoot newRoot old new
  refine ⟨_, hdelta, fun hdescribes => ⟨?_, ?_⟩, h.describes hinj⟩
  · intro x hx hdir y hy hname
    by_contra hfile
    exact h.not_describes_of_dir hx hdir hy hname (eq_false_of_ne_true hfile) hdescribes
  · intro y hy hyfile hnew x hx hxfile hcontent hfirst hkept
    refine (hdescribes.kept x hx hxfile hkept).2 ?_
    exact (h.moved_iff hinj hx hxfile).mpr ⟨y, hy, hyfile, hnew, hcontent, hfirst⟩

/-- SHA-256 of `x`. -/
def sampleDeltaSha (text : Bytes) : Digest :=
  if text = [120] then
    ⟨[45, 113, 22, 66, 183, 38, 176, 68, 1, 98, 124, 169, 251, 172, 50, 245, 200, 83, 15, 177,
      144, 60, 196, 219, 2, 37, 135, 23, 146, 26, 72, 129], by decide⟩
  else zeroDigest

/-- `/old` and `/new`, with nothing but a directory and a file of the same name. -/
def sampleOldRoot : PlainRoot := ⟨⟨[47, 111, 108, 100], by decide⟩, by decide⟩
def sampleNewRoot : PlainRoot := ⟨⟨[47, 110, 101, 119], by decide⟩, by decide⟩

def sampleDirTree : Tree :=
  ⟨.dir [97] .nil .nil, ⟨by decide, by decide, by decide⟩, not_mem_nil, trivial, trivial⟩

theorem findDelta_describes_iff_sample :
    Injective sampleDeltaSha sampleOldRoot sampleNewRoot sampleDirTree sampleTree ∧
      ∃ m, findDelta sampleDeltaSha sampleOldRoot.val sampleNewRoot.val sampleDirTree sampleTree =
        some m ∧ (Describes sampleOldRoot sampleNewRoot sampleDirTree sampleTree m ↔
          Plain sampleOldRoot sampleNewRoot sampleDirTree sampleTree) := by
  have hinj : Injective sampleDeltaSha sampleOldRoot sampleNewRoot sampleDirTree sampleTree := by
    have hall : ∀ x ∈ sampleDirTree.nodes sampleOldRoot.val ++ sampleTree.nodes sampleNewRoot.val,
        x.isdir = false → x.content = [120] := by decide
    intro x hx hxfile y hy hyfile _
    rw [hall x hx hxfile, hall y hy hyfile]
  exact ⟨hinj, findDelta_describes_iff _ _ _ _ _ hinj⟩

theorem findDelta_not_describes :
    ∃ m, findDelta sampleDeltaSha sampleOldRoot.val sampleNewRoot.val sampleDirTree sampleTree =
      some m ∧ ¬ Describes sampleOldRoot sampleNewRoot sampleDirTree sampleTree m := by
  obtain ⟨src, m, h, hdelta⟩ :=
    findDelta_ready sampleDeltaSha sampleOldRoot sampleNewRoot sampleDirTree sampleTree
  refine ⟨_, hdelta, ?_⟩
  exact h.not_describes_of_dir (x := ⟨[47, 97], [47], true, []⟩)
    (y := ⟨[47, 97], [47], false, [120]⟩) (by decide) rfl (by decide) rfl rfl

end V2I.Ota
