import V2I.Ota.Merge
import V2I.Ota.TreeDigest

/-!
# V2I.Ota.Merge.Loaded

A deleted object takes with it what lies below it: which names of a tree an entry of the deleted
table covers. Where the useless directories have those below them among themselves, and an entry
stands for the topmost ones only, each useless object is covered exactly once.
-/

namespace V2I.Ota

/-- `p` is `d` or lies below it. -/
def Covers (d p : Bytes) : Prop := d = p ∨ d ++ [slash] <+: p

instance (d p : Bytes) : Decidable (Covers d p) := inferInstanceAs (Decidable (_ ∨ _))

/-- The path of a root without a slash at its end. -/
abbrev PlainRoot := { root : Root // root.val.getLast? ≠ some slash }

theorem rootName_plain (root : PlainRoot) : rootName root.val.val = [slash] := if_neg root.2

/-- What is covered by a directory is covered by it as an object, or as part of its own. -/
theorem slash_prefix_iff {d p n : Bytes} (hn : slash ∉ n) :
    d ++ [slash] <+: p ++ slash :: n ↔ Covers d p := by
  constructor
  · intro h
    rcases Nat.lt_trichotomy d.length p.length with hlt | heq | hgt
    · right
      refine List.prefix_of_prefix_length_le h (List.prefix_append p _) ?_
      rw [List.length_append, List.length_singleton]
      exact hlt
    · left
      have hd : d <+: p ++ slash :: n := (List.prefix_append d _).trans h
      exact (List.prefix_of_prefix_length_le hd (List.prefix_append p _) heq.le).eq_of_length heq
    · -- the slash would be one of the last name
      exfalso
      obtain ⟨t, ht⟩ := h
      have hlast : (p ++ slash :: n)[d.length]? = some slash := by
        rw [← ht, List.append_assoc, List.getElem?_append_right (Nat.le_refl _), Nat.sub_self]
        rfl
      rw [List.getElem?_append_right hgt.le] at hlast
      obtain ⟨k, hk⟩ := Nat.exists_eq_succ_of_ne_zero (Nat.sub_ne_zero_of_lt hgt)
      rw [hk, List.getElem?_cons_succ] at hlast
      exact hn (List.mem_of_getElem? hlast)
  · rintro (rfl | ⟨t, rfl⟩)
    · exact ⟨n, by simp⟩
    · exact ⟨t ++ slash :: n, by simp⟩

section Nodes

variable {root : PlainRoot} {t : Tree} {x y q : Node}

/-- A node lies in the root or in a directory of the tree. -/
theorem Tree.parents_nodes (hx : x ∈ t.nodes root.val) :
    (x.parents = [slash] ∧ ∃ n, ValidName n ∧ x.name = slash :: n) ∨
      (∃ y ∈ t.nodes root.val, y.isdir = true ∧ y.name = x.parents) ∧
        ∃ n, ValidName n ∧ x.name = x.parents ++ slash :: n := by
  obtain ⟨n, hn, ⟨hpar, hname⟩ | ⟨hy, hname⟩⟩ := t.2.parents_all hx
  · rw [rootName_plain] at hpar hname
    exact .inl ⟨hpar, n, hn, hname⟩
  · exact .inr ⟨hy, n, hn, hname⟩

/-- Below the root, from the directories to what is in them. -/
theorem Tree.nodes_induction {motive : Node → Prop}
    (top : ∀ x ∈ t.nodes root.val, x.parents = [slash] → motive x)
    (below : ∀ x ∈ t.nodes root.val, ∀ y ∈ t.nodes root.val, y.isdir = true → y.name = x.parents →
      motive y → motive x) : ∀ x ∈ t.nodes root.val, motive x := by
  suffices h : ∀ k, ∀ x ∈ t.nodes root.val, x.name.length = k → motive x from
    fun x hx => h _ x hx rfl
  intro k
  induction k using Nat.strong_induction_on with
  | h k ih =>
      rintro x hx rfl
      obtain ⟨hpar, -⟩ | ⟨⟨y, hy, hdir, hname⟩, n, -, heq⟩ := Tree.parents_nodes hx
      · exact top x hx hpar
      · refine below x hx y hy hdir hname (ih _ ?_ y hy rfl)
        rw [heq, hname, List.length_append, List.length_cons]
        omega

theorem Tree.one_lt_length (hx : x ∈ t.nodes root.val) : 1 < x.name.length := by
  obtain ⟨n, -, hn, h⟩ := t.2.name_all hx
  have hlen := List.length_pos_iff.mpr hn.ne_nil
  rw [rootName_plain] at h
  obtain h | ⟨_, -, h⟩ := h
  · rw [h, List.length_append, List.length_singleton]
    omega
  · rw [h, List.length_append, List.length_append, List.length_singleton]
    omega

/-- The root is not below a node. -/
theorem Tree.not_covers_root (hq : q ∈ t.nodes root.val) : ¬ Covers q.name [slash] := by
  have hlen := Tree.one_lt_length hq
  rintro (heq | hle)
  · rw [heq] at hlen
    exact absurd hlen (by decide)
  · have hle := hle.length_le
    rw [List.length_append, List.length_singleton] at hle
    omega

/-- What covers a node, the node itself apart, covers its directory. -/
theorem Tree.covers_iff (hq : q ∈ t.nodes root.val) (hx : x ∈ t.nodes root.val) :
    Covers q.name x.name ↔ q.name = x.name ∨ Covers q.name x.parents := by
  refine or_congr_right ?_
  obtain ⟨hpar, n, hn, hname⟩ | ⟨-, n, hn, hname⟩ := Tree.parents_nodes hx
  · have hcovers := slash_prefix_iff (d := q.name) (p := []) hn.no_slash
    rw [List.nil_append] at hcovers
    rw [hpar, hname, hcovers]
    have hlen := Tree.one_lt_length hq
    refine ⟨?_, fun h => absurd h (Tree.not_covers_root hq)⟩
    rintro (heq | hle)
    · rw [heq] at hlen
      exact absurd hlen (by decide)
    · exact absurd (List.prefix_nil.mp hle) (by simp)
  · rw [hname]
    exact slash_prefix_iff hn.no_slash

/-- The names of a tree are different. -/
theorem Tree.eq_of_name (hx : x ∈ t.nodes root.val) (hy : y ∈ t.nodes root.val)
    (heq : x.name = y.name) : x = y :=
  List.inj_on_of_nodup_map (t.2.nodup_all _ _) hx hy heq

/-! ## the topmost -/

variable {useless files dels : List Bytes}

/-- The deleted table has the topmost of the useless directories, and the files that are not below
one of them. -/
structure Topmost (root : PlainRoot) (t : Tree) (useless files dels : List Bytes) : Prop where
  isdir : ∀ q ∈ useless, ∃ x ∈ t.nodes root.val, x.isdir = true ∧ x.name = q
  isfile : ∀ q ∈ files, ∃ x ∈ t.nodes root.val, x.isdir = false ∧ x.name = q
  below : ∀ x ∈ t.nodes root.val, x.isdir = true → x.parents ∈ useless → x.name ∈ useless
  mem : ∀ q, q ∈ dels ↔ ∃ x ∈ t.nodes root.val, x.name = q ∧ x.parents ∉ useless ∧
    (x.name ∈ useless ∨ x.name ∈ files)
  nodup : dels.Nodup

theorem Topmost.mem_dels (h : Topmost root t useless files dels) (hx : x ∈ t.nodes root.val) :
    x.name ∈ dels ↔ x.parents ∉ useless ∧ (x.name ∈ useless ∨ x.name ∈ files) := by
  rw [h.mem]
  constructor
  · rintro ⟨y, hy, heq, hwhy⟩
    obtain rfl := Tree.eq_of_name hy hx heq
    exact hwhy
  · exact fun hwhy => ⟨x, hx, rfl, hwhy⟩

theorem Topmost.not_mem_files (h : Topmost root t useless files dels) (hx : x ∈ t.nodes root.val)
    (hdir : x.isdir = true) : x.name ∉ files := by
  intro hfile
  obtain ⟨y, hy, hyfile, heq⟩ := h.isfile _ hfile
  obtain rfl := Tree.eq_of_name hy hx heq
  rw [hdir] at hyfile
  cases hyfile

theorem Topmost.dels_covers_iff (h : Topmost root t useless files dels) (hx : x ∈ t.nodes root.val)
    {d : Bytes} (hd : d ∈ dels) : Covers d x.name ↔ d = x.name ∨ Covers d x.parents := by
  obtain ⟨q, hq, rfl, -⟩ := (h.mem d).mp hd
  exact Tree.covers_iff hq hx

/-- Nothing covers what is not useless and lies in a directory that is not. -/
theorem Topmost.not_covers (h : Topmost root t useless files dels) :
    ∀ x ∈ t.nodes root.val, x.parents ∉ useless → x.name ∉ useless → x.name ∉ files →
      ∀ d ∈ dels, ¬ Covers d x.name := by
  refine Tree.nodes_induction (fun x hx hpar => ?_) fun x hx y hy hdir hpar ih => ?_
  · intro _ hname hfile d hd hcovers
    obtain rfl | hcovers := (h.dels_covers_iff hx hd).mp hcovers
    · exact ((h.mem_dels hx).mp hd).2.elim hname hfile
    · obtain ⟨q, hq, rfl, -⟩ := (h.mem d).mp hd
      exact Tree.not_covers_root hq (hpar ▸ hcovers)
  · intro hup hname hfile d hd hcovers
    obtain rfl | hcovers := (h.dels_covers_iff hx hd).mp hcovers
    · exact ((h.mem_dels hx).mp hd).2.elim hname hfile
    · rw [← hpar] at hup hcovers
      exact ih (fun hyup => hup (h.below y hy hdir hyup)) hup (h.not_mem_files hy hdir) d hd hcovers

theorem Topmost.not_covers_parents (h : Topmost root t useless files dels)
    (hx : x ∈ t.nodes root.val) (hup : x.parents ∉ useless) {d : Bytes} (hd : d ∈ dels) :
    ¬ Covers d x.parents := by
  obtain ⟨hpar, -⟩ | ⟨⟨y, hy, hdir, hpar⟩, -⟩ := Tree.parents_nodes hx
  · obtain ⟨q, hq, rfl, -⟩ := (h.mem d).mp hd
    exact hpar ▸ Tree.not_covers_root hq
  · rw [← hpar] at hup ⊢
    exact h.not_covers y hy (fun hyup => hup (h.below y hy hdir hyup)) hup
      (h.not_mem_files hy hdir) d hd

/-- What is useless is covered by exactly one object. -/
theorem Topmost.existsUnique (h : Topmost root t useless files dels) :
    ∀ x ∈ t.nodes root.val, x.name ∈ useless ∨ x.name ∈ files →
      ∃! d, d ∈ dels ∧ Covers d x.name := by
  have htop : ∀ x ∈ t.nodes root.val, x.parents ∉ useless → x.name ∈ useless ∨ x.name ∈ files →
      ∃! d, d ∈ dels ∧ Covers d x.name := by
    intro x hx hup hname
    refine ⟨x.name, ⟨(h.mem_dels hx).mpr ⟨hup, hname⟩, .inl rfl⟩, ?_⟩
    rintro d ⟨hd, hcovers⟩
    exact ((h.dels_covers_iff hx hd).mp hcovers).resolve_right (h.not_covers_parents hx hup hd)
  refine Tree.nodes_induction (fun x hx hpar => ?_) fun x hx y hy hdir hpar ih hname => ?_
  · refine htop x hx fun hup => ?_
    obtain ⟨z, hz, -, hzname⟩ := h.isdir _ hup
    exact Tree.not_covers_root hz (.inl (hzname.trans hpar))
  · by_cases hup : x.parents ∈ useless
    · obtain ⟨d, ⟨hd, hcovers⟩, huniq⟩ := ih (.inl (hpar ▸ hup))
      rw [hpar] at hcovers huniq
      refine ⟨d, ⟨hd, (h.dels_covers_iff hx hd).mpr (.inr hcovers)⟩, ?_⟩
      rintro d' ⟨hd', hcovers'⟩
      obtain rfl | hcovers' := (h.dels_covers_iff hx hd').mp hcovers'
      · exact absurd hup ((h.mem_dels hx).mp hd').1
      · exact huniq d' ⟨hd', hcovers'⟩
    · exact htop x hx hup hname

/-- Counted in the table. -/
theorem Topmost.countP (h : Topmost root t useless files dels) (hx : x ∈ t.nodes root.val)
    (hname : x.name ∈ useless ∨ x.name ∈ files) : dels.countP (Covers · x.name) = 1 := by
  obtain ⟨d, ⟨hd, hcovers⟩, huniq⟩ := h.existsUnique x hx hname
  have hcongr : dels.countP (Covers · x.name) = dels.countP (· == d) := by
    refine List.countP_congr fun d' hd' => ?_
    simp only [decide_eq_true_eq, beq_iff_eq]
    exact ⟨fun h' => huniq d' ⟨hd', h'⟩, fun heq => heq ▸ hcovers⟩
  rw [hcongr]
  exact List.count_eq_one_of_mem h.nodup hd

end Nodes

end V2I.Ota

/-!
## Loaded packages

What is known of the two trees while they are merged. The calls for a new tree are one for each
directory and one for each file, each name once. An old tree that is loaded finds each of its nodes
by name, and by digest the file whose name comes first.
-/

namespace V2I.Ota

variable {sha256 : Bytes → Digest} {root : PlainRoot} {t : Tree} {x y : Node} {n : Bytes}

/-! ## the calls -/

/-- The name that a call is about. -/
def Event.name : Event → Bytes
  | .directory name => name
  | .file nd => nd.name

theorem visits_name_does (root : PlainRoot) (t : Tree) :
    ((loaddir root.val.val t.val).map Visit.name).Perm
      ([slash] :: dirNames (t.nodes root.val)) := by
  have h := visits_name_perm [⟨rootName root.val.val, rootName root.val.val, t.val⟩]
  rw [List.flatMap_singleton] at h
  rw [← rootName_plain root]
  exact h

theorem mem_dirNames {nodes : List Node} :
    n ∈ dirNames nodes ↔ ∃ y ∈ nodes, y.isdir = true ∧ y.name = n := by
  rw [dirNames, List.mem_map]
  simp only [List.mem_filter, and_assoc]

/-- The calls are those for directories and those for files. -/
theorem events_perm (root : PlainRoot) (t : Tree) :
    (events root.val t).Perm (([slash] :: dirNames (t.nodes root.val)).map .directory ++
      ((t.nodes root.val).filter fun nd => !nd.isdir).map .file) := by
  have h := List.map_append_flatMap_perm (loaddir root.val.val t.val)
    (fun v => Event.directory v.name) fun v => (v.nodes.filter fun nd => !nd.isdir).map Event.file
  refine h.symm.trans ?_
  rw [← List.map_flatMap, ← List.filter_flatMap]
  refine List.Perm.append ?_ ((((created_perm root.val t).filter _).map _))
  have hdirs := (visits_name_does root t).map Event.directory
  rwa [List.map_map] at hdirs

theorem directory_mem_events :
    .directory n ∈ events root.val t ↔
      n = [slash] ∨ ∃ y ∈ t.nodes root.val, y.isdir = true ∧ y.name = n := by
  rw [(events_perm root t).mem_iff]
  simp [mem_dirNames]

theorem file_mem_events : .file x ∈ events root.val t ↔ x ∈ t.nodes root.val ∧ x.isdir = false := by
  rw [(events_perm root t).mem_iff]
  simp

theorem nodup_events (root : PlainRoot) (t : Tree) :
    ((events root.val t).map Event.name).Nodup := by
  rw [((events_perm root t).map Event.name).nodup_iff, List.map_append, List.map_map, List.map_map]
  show (([slash] :: dirNames (t.nodes root.val)).map id ++
    ((t.nodes root.val).filter fun nd => !nd.isdir).map Node.name).Nodup
  rw [List.map_id, List.cons_append, dirNames, ← List.map_append]
  have h := nodup_created root.val t
  rw [List.map_cons, ((created_perm root.val t).map Node.name).cons _ |>.nodup_iff] at h
  rw [((List.filter_append_perm Node.isdir (t.nodes root.val)).map Node.name).cons _ |>.nodup_iff,
    ← rootName_plain root]
  exact h

/-! ## the old tree -/

/-- `l` is the tree after `loaddir`. -/
structure Loaded.Holds (sha256 : Bytes → Digest) (root : PlainRoot) (t : Tree) (l : Loaded) :
    Prop where
  mem : ∀ x, x ∈ l.names ↔ x = rootNode root.val ∨ x ∈ t.nodes root.val
  ordered : KeyTree.Ordered Node.name l.names
  digests : l.digests = (l.names.filter fun nd => !nd.isdir).foldl (addByDigest sha256) []

/-- Every tree can be loaded. -/
theorem loadNames_does (sha256 : Bytes → Digest) (root : PlainRoot) (t : Tree) :
    ∃ l, loadNames sha256 root.val t = some l ∧ l.Holds sha256 root t := by
  obtain ⟨names, hnames, hord, hperm⟩ := insertAll_does (nodup_created root.val t)
  refine ⟨⟨names, (names.filter fun nd => !nd.isdir).foldl (addByDigest sha256) []⟩, ?_,
    fun x => ?_, hord, rfl⟩
  · rw [loadNames, hnames]
    rfl
  · rw [hperm.mem_iff, List.mem_cons, (created_perm root.val t).mem_iff]

theorem rootNode_name (root : PlainRoot) : (rootNode root.val).name = [slash] := rootName_plain root

namespace Loaded.Holds

variable {l : Loaded} (h : l.Holds sha256 root t)

include h

theorem nodup : (l.names.map Node.name).Nodup := by
  refine List.pairwise_map.mpr (h.ordered.imp fun {a b} hlt heq => ?_)
  rw [heq] at hlt
  exact List.lt_irrefl _ hlt

theorem name_ne_nil (hx : x ∈ l.names) : x.name ≠ [] := by
  obtain rfl | hx := (h.mem x).mp hx
  · rw [rootNode_name]
    exact List.cons_ne_nil _ _
  · exact List.length_pos_iff.mp (Nat.lt_of_succ_lt (Tree.one_lt_length hx))

theorem findNode_eq_some : l.findNode n = some x ↔ x ∈ l.names ∧ x.name = n := by
  have hfind : l.names.find? (fun nd => nd.name = n) = some x ↔ x ∈ l.names ∧ x.name = n := by
    constructor
    · intro hsome
      exact ⟨List.mem_of_find?_eq_some hsome, by simpa using List.find?_some hsome⟩
    · rintro ⟨hx, rfl⟩
      cases hfound : l.names.find? fun nd => nd.name = x.name with
      | none =>
          have hnot := List.find?_eq_none.mp hfound x hx
          simp at hnot
      | some y =>
          have hname : y.name = x.name := by simpa using List.find?_some hfound
          rw [List.inj_on_of_nodup_map h.nodup (List.mem_of_find?_eq_some hfound) hx hname]
  rw [findNode]
  split
  · rename_i hnil
    constructor
    · rintro ⟨⟩
    · rintro ⟨hx, hname⟩
      exact absurd (hname.trans hnil) (h.name_ne_nil hx)
  · exact hfind

theorem findNode_eq_none : l.findNode n = none ↔ ∀ x ∈ l.names, x.name ≠ n := by
  rw [Option.eq_none_iff_forall_ne_some]
  simp only [ne_eq, h.findNode_eq_some, not_and]

omit h in
/-- The first file with a digest stays what is found. -/
theorem findDigest_foldl (files digests : List Node) (d : Digest) :
    findDigest sha256 (files.foldl (addByDigest sha256) digests) d =
      (findDigest sha256 digests d).or (files.find? fun nd => sha256 nd.content = d) := by
  induction files generalizing digests with
  | nil => simp [findDigest]
  | cons nd files ih =>
      rw [List.foldl_cons, ih, addByDigest]
      split
      · rename_i hany
        by_cases hd : sha256 nd.content = d
        · -- a file with this digest is there
          obtain ⟨old, hold, hsame⟩ := List.any_eq_true.mp hany
          have hsome : (findDigest sha256 digests d).isSome :=
            List.find?_isSome.mpr ⟨old, hold, by simpa [hd] using hsame⟩
          rw [Option.or_of_isSome hsome, Option.or_of_isSome hsome]
        · rw [List.find?_cons_of_neg (by simpa using hd)]
      · rw [findDigest, List.find?_append, findDigest, Option.or_assoc, ← List.find?_append]
        rfl

/-- The file of a digest is the one whose name comes first. -/
theorem findDigest_eq_some {d : Digest} :
    findDigest sha256 l.digests d = some x ↔
      x ∈ t.nodes root.val ∧ x.isdir = false ∧ sha256 x.content = d ∧
        ∀ z ∈ t.nodes root.val, z.isdir = false → sha256 z.content = d → ¬ z.name < x.name := by
  have hmem : ∀ z, z ∈ l.names.filter (fun nd => !nd.isdir) ↔
      z ∈ t.nodes root.val ∧ z.isdir = false := by
    intro z
    rw [List.mem_filter, h.mem, Bool.not_eq_true']
    refine and_congr_left fun hfile => or_iff_right ?_
    rintro rfl
    cases hfile
  have hfind : findDigest sha256 l.digests d =
      (l.names.filter fun nd => !nd.isdir).find? fun nd => sha256 nd.content = d := by
    rw [h.digests, findDigest_foldl]
    rfl
  have hord : ((l.names.filter fun nd => !nd.isdir)).Pairwise fun a b => a.name < b.name :=
    h.ordered.filter _
  have hfirst : ∀ {x}, findDigest sha256 l.digests d = some x →
      x ∈ t.nodes root.val ∧ x.isdir = false ∧ sha256 x.content = d ∧
        ∀ z ∈ t.nodes root.val, z.isdir = false → sha256 z.content = d → ¬ z.name < x.name := by
    intro x hsome
    rw [hfind] at hsome
    obtain ⟨hx, hxfile⟩ := (hmem x).mp (List.mem_of_find?_eq_some hsome)
    obtain ⟨hd, before, after, hsplit, hbefore⟩ := List.find?_eq_some_iff_append.mp hsome
    refine ⟨hx, hxfile, by simpa using hd, fun z hz hzfile hzd hlt => ?_⟩
    have hz' := (hmem z).mpr ⟨hz, hzfile⟩
    rw [hsplit] at hz' hord
    obtain hz' | hz' := List.mem_append.mp hz'
    · have hnot := hbefore z hz'
      simp [hzd] at hnot
    · obtain rfl | hz' := List.mem_cons.mp hz'
      · exact List.lt_irrefl _ hlt
      · have hgt := (List.pairwise_cons.mp (List.pairwise_append.mp hord).2.1).1 z hz'
        exact List.lt_asymm hlt hgt
  refine ⟨hfirst, ?_⟩
  rintro ⟨hx, hxfile, hxd, hleast⟩
  cases hsome : findDigest sha256 l.digests d with
  | none =>
      rw [hfind] at hsome
      have hnot := List.find?_eq_none.mp hsome x ((hmem x).mpr ⟨hx, hxfile⟩)
      simp [hxd] at hnot
  | some y =>
      obtain ⟨hy, hyfile, hyd, hyleast⟩ := hfirst hsome
      rw [Tree.eq_of_name hy hx
        (Std.Trichotomous.trichotomous _ _ (hleast y hy hyfile hyd) (hyleast x hx hxfile hxd))]

end Loaded.Holds

end V2I.Ota
