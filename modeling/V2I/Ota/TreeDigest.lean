import V2I.Ota.FileList

/-!
# V2I.Ota.TreeDigest

Whether a tree has one digest. The order in which a directory is enumerated does not matter to
either file list. But the packaging tool never asks for the digest of all, so what it puts into a
delta package is 32 zeros for every tree, and the middleware hashes contents and names without
their lengths, so every tree with two files or more shares its bytes with a tree of one file.
-/

namespace V2I.Ota

open List

variable {root : Root} {t t' : Tree} {sha256 : Bytes → Digest}

/-- The nodes of a tree, in no order that matters. -/
def Tree.nodes (root : Root) (t : Tree) : List Node :=
  t.val.all (rootName root.val) (rootName root.val)

/-- The paths of the files and their contents. -/
def Tree.files (root : Root) (t : Tree) : List (Bytes × Bytes) :=
  ((t.nodes root).filter fun nd => !nd.isdir).map fun nd => (nd.name, nd.content)

/-- Two enumerations of one tree. -/
def SameTree (root : Root) (t t' : Tree) : Prop := ∀ nd, nd ∈ t.nodes root ↔ nd ∈ t'.nodes root

/-- The same set of paths with contents. -/
def SameFiles (root : Root) (t t' : Tree) : Prop := ∀ f, f ∈ t.files root ↔ f ∈ t'.files root

/-- A tree has one digest: that of the full package is that of a delta package, both whatever the
enumeration, and no tree with other files is hashed from the same bytes. -/
structure OneDigest (sha256 : Bytes → Digest) (root : Root) (t : Tree) : Prop where
  same : fullDigest sha256 root t = deltaDigest sha256 root t
  order : ∀ t', SameTree root t t' → fullDigest sha256 root t' = fullDigest sha256 root t ∧
    deltaDigest sha256 root t' = deltaDigest sha256 root t
  injective : ∀ t', ¬ SameFiles root t t' →
    fullText root t' ≠ fullText root t ∧ deltaText root t' ≠ deltaText root t

/-! ## the trees of names -/

theorem created_perm (root : Root) (t : Tree) : (created root t).Perm (t.nodes root) := by
  have h := visits_nodes_perm [⟨rootName root.val, rootName root.val, t.val⟩]
  rwa [flatMap_singleton] at h

theorem nodup_created (root : Root) (t : Tree) :
    ((rootNode root :: created root t).map Node.name).Nodup := by
  rw [map_cons, nodup_cons, ((created_perm root t).map Node.name).mem_iff,
    ((created_perm root t).map Node.name).nodup_iff]
  refine ⟨fun hmem => ?_, t.2.nodup_all _ _⟩
  obtain ⟨nd, hnd, heq⟩ := mem_map.mp hmem
  exact t.2.name_ne_path hnd heq

/-- Nodes with different names go into a tree of names. -/
theorem insertAll_does {nodes : List Node} (h : (nodes.map Node.name).Nodup) :
    ∃ tree, KeyTree.insertAll Node.name [] nodes = some tree ∧
      KeyTree.Ordered Node.name tree ∧ tree.Perm nodes := by
  obtain ⟨tree, htree⟩ := KeyTree.insertAll_isSome (t := []) h
  exact ⟨tree, htree, KeyTree.insertAll_ordered List.Pairwise.nil htree,
    KeyTree.insertAll_perm htree⟩

/-- The tree of names does not depend on the order. -/
theorem insertAll_congr {nodes nodes' : List Node} (h : (nodes.map Node.name).Nodup)
    (h' : (nodes'.map Node.name).Nodup) (hmem : ∀ nd, nd ∈ nodes ↔ nd ∈ nodes') :
    KeyTree.insertAll Node.name [] nodes = KeyTree.insertAll Node.name [] nodes' := by
  obtain ⟨tree, htree, hord, hperm⟩ := insertAll_does h
  obtain ⟨tree', htree', hord', hperm'⟩ := insertAll_does h'
  rw [htree, htree']
  exact congrArg some (hord.eq_of_mem_iff hord' fun nd => by
    rw [hperm.mem_iff, hmem, hperm'.mem_iff])

theorem SameTree.created (h : SameTree root t t') (nd : Node) :
    nd ∈ created root t ↔ nd ∈ Ota.created root t' := by
  rw [(created_perm root t).mem_iff, (created_perm root t').mem_iff]
  exact h nd

theorem SameTree.loaddir_full (h : SameTree root t t') :
    Mware.FileList.new.loaddir root t' = Mware.FileList.new.loaddir root t := by
  have hnodup := (nodup_cons.mp (nodup_created root t)).2
  have hnodup' := (nodup_cons.mp (nodup_created root t')).2
  rw [Mware.FileList.loaddir, Mware.FileList.loaddir]
  show (KeyTree.insertAll Node.name [] _).bind _ = (KeyTree.insertAll Node.name [] _).bind _
  rw [insertAll_congr hnodup' hnodup fun nd => (h.created nd).symm]

/-- The order of an enumeration does not show in the digest of a full package. -/
theorem SameTree.fullDigest (h : SameTree root t t') :
    fullDigest sha256 root t' = Ota.fullDigest sha256 root t := by
  rw [Ota.fullDigest, Ota.fullDigest, h.loaddir_full]

/-- The packaging tool loads every tree, and does not take the digest of all. -/
theorem deltaDigest_eq (sha256 : Bytes → Digest) (root : Root) (t : Tree) :
    deltaDigest sha256 root t = some zeroDigest := by
  obtain ⟨tree, htree, -⟩ := insertAll_does (nodup_created root t)
  rw [deltaDigest, FileList.loaddir]
  show ((KeyTree.insertAll Node.name [] _).bind _).map _ = _
  rw [htree]
  rfl

/-- It hashes nothing. -/
theorem deltaText_eq (root : Root) (t : Tree) : deltaText root t = some [] := by
  obtain ⟨tree, htree, -⟩ := insertAll_does (nodup_created root t)
  rw [deltaText, htree, Option.map_some, FileList.digestText]
  congr 1
  rw [flatMap_eq_nil_iff]
  intro nd _
  have hneed : FileList.new.needGlobalDigest = false := rfl
  rw [hneed, Bool.and_false]
  rfl

/-- What the middleware hashes for the nodes of a tree of names. -/
def namesText (tree : List Node) : Bytes :=
  tree.flatMap fun nd => if !nd.isdir then nd.content ++ (nd.name ++ [0]) else []

/-- The middleware hashes contents and names of the files, in the order of the names. -/
theorem full_does (sha256 : Bytes → Digest) (root : Root) (t : Tree) :
    ∃ tree, KeyTree.Ordered Node.name tree ∧ tree.Perm (t.nodes root) ∧
      fullText root t = some (namesText tree) ∧
      fullDigest sha256 root t = some (sha256 (namesText tree)) := by
  obtain ⟨tree, htree, hord, hperm⟩ := insertAll_does (nodup_cons.mp (nodup_created root t)).2
  have hload : Mware.FileList.new.loaddir root t =
      some { Mware.FileList.new with globalNameTree := tree } := by
    rw [Mware.FileList.loaddir]
    show (KeyTree.insertAll Node.name [] _).bind _ = _
    rw [htree]
    rfl
  refine ⟨tree, hord, hperm.trans (created_perm root t), ?_, ?_⟩
  · rw [fullText, hload]
    rfl
  · rw [fullDigest, hload]
    rfl

/-! ## trees with the same bytes -/

theorem namesText_append (l l' : List Node) : namesText (l ++ l') = namesText l ++ namesText l' :=
  flatMap_append

theorem namesText_cons (nd : Node) (l : List Node) :
    namesText (nd :: l) =
      (if !nd.isdir then nd.content ++ (nd.name ++ [0]) else []) ++ namesText l :=
  flatMap_cons

/-- The tree with one file. -/
def oneFile (name content : Bytes) (h : ValidName name) : Tree :=
  ⟨.file name content .nil, h, not_mem_nil, trivial⟩

theorem fullText_oneFile (root : Root) {name : Bytes} (content : Bytes) (h : ValidName name) :
    fullText root (oneFile name content h) =
      some (content ++ (rootName root.val ++ name ++ [0])) := by
  obtain ⟨tree, -, hperm, htext, -⟩ := full_does (fun _ => zeroDigest) root (oneFile name content h)
  obtain rfl := perm_singleton.mp hperm
  rw [htext]
  exact congrArg some (append_nil _)

/-- The name of a node ends with the name of its entry, as that of an entry of the root. -/
theorem name_ends {nd : Node} (hnd : nd ∈ t.nodes root) :
    ∃ q n, ValidName n ∧ nd.name = q ++ (rootName root.val ++ n) := by
  obtain ⟨n, hn, ⟨-, hname⟩ | ⟨-, hname⟩⟩ := t.2.parents_all hnd
  · exact ⟨[], n, hn, hname⟩
  · rw [rootName]
    split
    · exact ⟨nd.parents ++ [slash], n, hn, by rw [hname]; simp⟩
    · exact ⟨nd.parents, n, hn, by rw [hname]; rfl⟩

/-- Some tree with a single file is hashed from the same bytes as a tree that has a file. -/
theorem exists_oneFile (h : t.files root ≠ []) :
    ∃ name content, ∃ hname : ValidName name,
      fullText root (oneFile name content hname) = fullText root t := by
  obtain ⟨tree, -, hperm, htext, -⟩ := full_does (fun _ => zeroDigest) root t
  -- the last file in the order of the names
  obtain ⟨before, nd, after, htree, hfile, hafter⟩ : ∃ before nd after,
      tree = before ++ nd :: after ∧ nd.isdir = false ∧ ∀ x ∈ after, x.isdir = true := by
    obtain ⟨f, hf⟩ := exists_mem_of_ne_nil _ h
    obtain ⟨x, hx, -⟩ := mem_map.mp hf
    obtain ⟨hx, hfile⟩ := mem_filter.mp hx
    have hmem : x ∈ tree.reverse := mem_reverse.mpr (hperm.mem_iff.mpr hx)
    cases hfind : tree.reverse.find? fun nd => !nd.isdir with
    | none => exact absurd hfile (find?_eq_none.mp hfind x hmem)
    | some nd =>
        obtain ⟨hnd, as, bs, hsplit, has⟩ := find?_eq_some_iff_append.mp hfind
        refine ⟨bs.reverse, nd, as.reverse, ?_, by simpa using hnd, fun y hy => ?_⟩
        · rw [← reverse_reverse tree, hsplit]
          simp
        · simpa using has y (mem_reverse.mp hy)
  have hnd : nd ∈ t.nodes root := hperm.mem_iff.mp (by rw [htree]; simp)
  obtain ⟨q, n, hn, hname⟩ := name_ends hnd
  have hdirs : namesText after = [] := by
    refine flatMap_eq_nil_iff.mpr fun x hx => ?_
    rw [hafter x hx]
    rfl
  refine ⟨n, namesText before ++ (nd.content ++ q), hn, ?_⟩
  rw [fullText_oneFile, htext, htree, namesText_append, namesText_cons, hdirs, hfile, hname]
  simp

/-- A tree with two files or more is hashed from the bytes of another. -/
theorem exists_sameText (h : 2 ≤ (t.files root).length) :
    ∃ t', ¬ SameFiles root t t' ∧ fullText root t' = fullText root t := by
  have hne : t.files root ≠ [] := by
    intro hnil
    rw [hnil] at h
    exact absurd h (by decide)
  obtain ⟨name, content, hname, htext⟩ := exists_oneFile hne
  refine ⟨oneFile name content hname, fun hsame => ?_, htext⟩
  -- the two files would be the one of the other tree
  have hone : ∀ f ∈ t.files root, f = (rootName root.val ++ name, content) :=
    fun f hf => mem_singleton.mp ((hsame f).mp hf)
  have hnodup : (t.files root).Nodup := by
    have hnames := (t.2.nodup_all (rootName root.val) (rootName root.val)).sublist
      ((filter_sublist (p := fun nd => !nd.isdir)).map Node.name)
    refine List.Nodup.of_map Prod.fst ?_
    rw [Tree.files, map_map]
    exact hnames
  obtain ⟨f₁, f₂, rest, hfiles⟩ : ∃ f₁ f₂ rest, t.files root = f₁ :: f₂ :: rest := by
    match hfiles : t.files root, h with
    | f₁ :: f₂ :: rest, _ => exact ⟨f₁, f₂, rest, rfl⟩
  rw [hfiles] at hone hnodup
  have heq : f₁ = f₂ := (hone f₁ (by simp)).trans (hone f₂ (by simp)).symm
  exact (nodup_cons.mp hnodup).1 (heq ▸ mem_cons_self)

theorem exists_otherFiles (root : Root) (t : Tree) : ∃ t', ¬ SameFiles root t t' := by
  by_cases hnil : t.files root = []
  · refine ⟨oneFile [97] [] ⟨by decide, by decide, by decide⟩, fun hsame => ?_⟩
    have hf := (hsame _).mpr mem_cons_self
    rw [hnil] at hf
    cases hf
  · obtain ⟨f, hf⟩ := exists_mem_of_ne_nil _ hnil
    exact ⟨⟨.nil, trivial⟩, fun hsame => not_mem_nil ((hsame f).mp hf)⟩

/-! ## one digest -/

/-- No tree has one digest. Its digests agree only where SHA-256 of what the middleware hashes is
32 zeros, the order of the enumeration never matters, all trees look alike to the packaging tool,
and to the middleware each tree with two files looks like another. -/
theorem not_oneDigest (sha256 : Bytes → Digest) (root : Root) (t : Tree) :
    ¬ OneDigest sha256 root t ∧
      (∃ text, fullText root t = some text ∧
        (fullDigest sha256 root t = deltaDigest sha256 root t ↔ sha256 text = zeroDigest)) ∧
      (∀ t', SameTree root t t' → fullDigest sha256 root t' = fullDigest sha256 root t ∧
        deltaDigest sha256 root t' = deltaDigest sha256 root t) ∧
      (∀ t', deltaText root t' = deltaText root t) ∧
      (2 ≤ (t.files root).length →
        ∃ t', ¬ SameFiles root t t' ∧ fullText root t' = fullText root t) := by
  refine ⟨fun h => ?_, ?_, fun t' hsame => ⟨hsame.fullDigest, ?_⟩, fun t' => ?_,
    exists_sameText⟩
  · -- some tree has other files
    obtain ⟨t', hother⟩ := exists_otherFiles root t
    exact (h.injective t' hother).2 (by rw [deltaText_eq, deltaText_eq])
  · obtain ⟨tree, -, -, htext, hdigest⟩ := full_does sha256 root t
    refine ⟨_, htext, ?_⟩
    rw [hdigest, deltaDigest_eq]
    exact Option.some_inj
  · rw [deltaDigest_eq, deltaDigest_eq]
  · rw [deltaText_eq, deltaText_eq]

/-- The file `a` with the content `x`, and the SHA-256 of what is hashed for it. -/
def sampleTree : Tree := oneFile [97] [120] ⟨by decide, by decide, by decide⟩

def sampleSha (text : Bytes) : Digest :=
  if text = [120, 47, 97, 0] then
    ⟨[122, 225, 157, 53, 152, 83, 78, 165, 252, 207, 7, 78, 76, 242, 169, 195, 199, 200, 226, 186,
      231, 168, 76, 7, 68, 184, 244, 172, 149, 4, 119, 51], by decide⟩
  else zeroDigest

theorem not_oneDigest_sample :
    fullText ⟨[47, 116], by decide⟩ sampleTree = some [120, 47, 97, 0] ∧
      ¬ OneDigest sampleSha ⟨[47, 116], by decide⟩ sampleTree := by
  have htext : fullText ⟨[47, 116], by decide⟩ sampleTree = some [120, 47, 97, 0] :=
    fullText_oneFile ⟨[47, 116], by decide⟩ [120] ⟨by decide, by decide, by decide⟩
  refine ⟨htext, fun h => ?_⟩
  obtain ⟨tree, -, -, htext', hdigest⟩ := full_does sampleSha ⟨[47, 116], by decide⟩ sampleTree
  have hsame := h.same
  rw [hdigest, deltaDigest_eq, Option.some.inj (htext'.symm.trans htext)] at hsame
  exact absurd (Option.some.inj hsame) (by decide)

end V2I.Ota
