import V2I.MapCore.Kdtree.Search
import V2I.OsmParser.Planning

/-!
# V2I.OsmParser.Planning.Nearby

`planning_map::get_nearby_node`: the node of a block near to a target. `build_kdtree` of a block is
the one of `V2I.MapCore.Kdtree` with `lat` for `x` and `lon` for `y`; a distance is the exact planar
one and kept as its square, as there.

The node returned is the one below which the target would hang in the tree (`getNearbyNode_eq`).
-/

namespace V2I.OsmParser

open Kdtree List Option

variable {K : Type} [Field K] [LinearOrder K]

def PlanningMapNode.pos (n : PlanningMapNode K) : Point K := ⟨n.lat, n.lon⟩

/-- `create_kdtree`: the tree of the table of all nodes, each with its place in the block. -/
def createKdtree (q : Qsort (Kdtree.Node K)) (pblk : PlanningMapBlock K) : Kdtree.Tree K :=
  buildKdtree q (pblk.nodelist.map (·.pos))

/-- How `get_nearby_node` ends. A node is its place in the block; `d` is squared. -/
inductive Nearby (K : Type)
  | noTree
  | found (pnode : ℕ) (d : K)
  | emptyStack
  deriving DecidableEq

/-- `get_nearby_node` in a tree. -/
def nearbyInTree (target : Point K) (kdtree : Kdtree.Tree K) : Nearby K :=
  if kdtree.isNull then .noTree
  else
    match descend target kdtree [] with
    | [] | .null :: _ => .emptyStack
    | .node _ v _ _ :: searchPath =>
        -- the loop back runs while the stack is empty, and its body begins with its top
        if searchPath.isEmpty then .emptyStack
        else .found v.id (distanceSq v.pos target)

def getNearbyNode (q : Qsort (Kdtree.Node K)) (pblk : PlanningMapBlock K) (target : Point K) :
    Nearby K :=
  nearbyInTree target (createKdtree q pblk)

/-- A nearest node of the block is returned, with its distance. -/
def ReturnsNearest (q : Qsort (Kdtree.Node K)) (pblk : PlanningMapBlock K) (target : Point K) :
    Prop :=
  ∃ pnode n, getNearbyNode q pblk target = .found pnode (distanceSq n.pos target) ∧
    pblk.nodelist[pnode]? = some n ∧
    ∀ m ∈ pblk.nodelist, distanceSq n.pos target ≤ distanceSq m.pos target

/-- The node below which a target would hang. -/
def parentOf (target : Point K) : Kdtree.Tree K → Option (Kdtree.Node K)
  | .null => none
  | .node l v s r =>
      if s.coord target ≤ s.coord v.pos then (parentOf target l).or (some v)
      else (parentOf target r).or (some v)

/-- The root has a child on the side of the target. -/
def HasNearChild (target : Point K) : Kdtree.Tree K → Prop
  | .null => False
  | .node l v s r => (nearChild target l v s r).isNull = false

/-! ## the way down -/

variable {t : Kdtree.Tree K} (target : Point K)

omit [Field K] in
/-- The way down ends at the parent of the target. -/
theorem descend_eq (hne : t.isNull = false) (stack : List (Kdtree.Tree K)) :
    ∃ l v s r path, descend target t stack = .node l v s r :: (path ++ stack) ∧
      parentOf target t = some v ∧ (path ≠ [] ↔ HasNearChild target t) := by
  induction t generalizing stack with
  | null => exact absurd hne (by simp [Kdtree.Tree.isNull])
  | node l v s r ihl ihr =>
    have hdesc : descend target (.node l v s r) stack =
        descend target (nearChild target l v s r) (.node l v s r :: stack) := by
      rw [descend, nearChild]
      split <;> rfl
    have hparent : parentOf target (.node l v s r) =
        (parentOf target (nearChild target l v s r)).or (some v) := by
      rw [parentOf, nearChild]
      split <;> rfl
    have hih : (nearChild target l v s r).isNull = false →
        ∃ l' v' s' r' path, descend target (nearChild target l v s r) (.node l v s r :: stack) =
          .node l' v' s' r' :: (path ++ .node l v s r :: stack) ∧
          parentOf target (nearChild target l v s r) = some v' := by
      intro hnear
      unfold nearChild at hnear ⊢
      split at hnear
      · next hside =>
        obtain ⟨l', v', s', r', path, hpath, hv', -⟩ := ihl hnear (.node l v s r :: stack)
        rw [if_pos hside]
        exact ⟨l', v', s', r', path, hpath, hv'⟩
      · next hside =>
        obtain ⟨l', v', s', r', path, hpath, hv', -⟩ := ihr hnear (.node l v s r :: stack)
        rw [if_neg hside]
        exact ⟨l', v', s', r', path, hpath, hv'⟩
    rw [hdesc, hparent]
    cases hnear : (nearChild target l v s r).isNull with
    | true =>
      refine ⟨l, v, s, r, [], ?_, ?_, by simp [HasNearChild, hnear]⟩
      · cases h : nearChild target l v s r with
        | null => rfl
        | node => exact absurd hnear (by simp [h, Kdtree.Tree.isNull])
      · cases h : nearChild target l v s r with
        | null => rfl
        | node => exact absurd hnear (by simp [h, Kdtree.Tree.isNull])
    | false =>
      obtain ⟨l', v', s', r', path, hpath, hv'⟩ := hih hnear
      refine ⟨l', v', s', r', path ++ [.node l v s r], ?_, by rw [hv', some_or], ?_⟩
      · rw [hpath, append_assoc, singleton_append]
      · simp [HasNearChild, hnear]

/-- The node returned is the parent of the target; below a root without a child on its side the
stack is read when it is empty. -/
theorem nearbyInTree_eq (hne : t.isNull = false) :
    ∃ v, parentOf target t = some v ∧
      (HasNearChild target t → nearbyInTree target t = .found v.id (distanceSq v.pos target)) ∧
      (¬ HasNearChild target t → nearbyInTree target t = .emptyStack) := by
  obtain ⟨l, v, s, r, path, hpath, hparent, hchild⟩ := descend_eq target hne []
  rw [append_nil] at hpath
  refine ⟨v, hparent, fun h => ?_, fun h => ?_⟩
  · have hpath_ne := hchild.mpr h
    simp [nearbyInTree, hne, hpath, isEmpty_eq_false_iff.mpr hpath_ne]
  · have hpath_nil : path = [] := not_not.mp (mt hchild.mp h)
    simp [nearbyInTree, hne, hpath, hpath_nil]

/-! ## the nodes of the tree -/

variable {v : Kdtree.Node K}

omit [Field K] in
theorem parentOf_mem {target : Point K} (h : parentOf target t = some v) : v ∈ t.nodes := by
  induction t with
  | null => exact absurd h (by simp [parentOf])
  | node l u s r ihl ihr =>
    rw [parentOf] at h
    rw [Kdtree.Tree.nodes, mem_append, mem_cons]
    split at h
    · rcases or_eq_some_iff.mp h with hl | ⟨-, hu⟩
      · exact .inl (ihl hl)
      · exact .inr (.inl (some.inj hu).symm)
    · rcases or_eq_some_iff.mp h with hr | ⟨-, hu⟩
      · exact .inr (.inr (ihr hr))
      · exact .inr (.inl (some.inj hu).symm)

variable {pblk : PlanningMapBlock K}

/-- A node of the tree is the node of the block at its place. -/
theorem getElem?_of_mem_createKdtree {q : Qsort (Kdtree.Node K)}
    (h : v ∈ (createKdtree q pblk).nodes) : ∃ n, pblk.nodelist[v.id]? = some n ∧ n.pos = v.pos := by
  have hmem := (nodes_doBuildKdtree_perm q _).mem_iff.mp h
  obtain ⟨i, hi, rfl⟩ := mem_mapIdx.mp hmem
  rw [length_map] at hi
  refine ⟨pblk.nodelist[i], by simp [hi], by simp⟩

variable (q : Qsort (Kdtree.Node K))

theorem createKdtree_isNull (hne : pblk.nodelist ≠ []) : (createKdtree q pblk).isNull = false := by
  refine doBuildKdtree_isNull_eq_false q fun h => hne ?_
  simpa [table] using h

theorem createKdtree_of_nil {q : Qsort (Kdtree.Node K)} (h : pblk.nodelist = []) :
    createKdtree q pblk = .null := by
  simp [createKdtree, buildKdtree, table, h]

/-- A node of the block is found just if the root has a child on the side of the target. -/
theorem exists_found_iff (pblk : PlanningMapBlock K) (target : Point K) :
    (∃ pnode d n, getNearbyNode q pblk target = .found pnode d ∧
      pblk.nodelist[pnode]? = some n) ↔ HasNearChild target (createKdtree q pblk) := by
  by_cases hne : pblk.nodelist = []
  · rw [createKdtree_of_nil hne]
    simp [hne, HasNearChild]
  obtain ⟨v, hparent, hfound, hempty⟩ := nearbyInTree_eq target (createKdtree_isNull q hne)
  constructor
  · rintro ⟨pnode, d, n, hd, -⟩
    by_contra hno
    rw [getNearbyNode, hempty hno] at hd
    cases hd
  · intro hchild
    obtain ⟨n, hn, -⟩ := getElem?_of_mem_createKdtree (parentOf_mem hparent)
    exact ⟨v.id, _, n, hfound hchild, hn⟩

/-! ## the nearest node -/

/-- Each line of a tree is drawn through one of its nodes, with its two sides. No line through
another node separates a node from the target, and there is nothing on the side of the target of
the line through the node itself. -/
def Faces (target : Point K) (v : Kdtree.Node K) : Kdtree.Tree K → Prop
  | .null => True
  | .node l u s r =>
      ((v ∈ l.nodes → s.coord target ≤ s.coord u.pos) ∧
        (v ∈ r.nodes → s.coord u.pos < s.coord target) ∧
        (v = u → (nearChild target l u s r).isNull)) ∧ Faces target v l ∧ Faces target v r

omit [Field K] in
/-- The lines of a tree that a node is not in. -/
theorem faces_of_notMem (h : v ∉ t.nodes) : Faces target v t := by
  induction t with
  | null => trivial
  | node l u s r ihl ihr =>
    simp only [Kdtree.Tree.nodes, mem_append, mem_cons, not_or] at h
    exact ⟨⟨fun hl => absurd hl h.1, fun hr => absurd hr h.2.2, fun hu => absurd hu h.2.1⟩,
      ihl h.1, ihr h.2.2⟩

omit [Field K] in
theorem parentOf_eq_none {target : Point K} : parentOf target t = none ↔ t.isNull := by
  cases t with
  | null => simp [parentOf, Kdtree.Tree.isNull]
  | node l v s r =>
    rw [parentOf]
    split <;> simp [Kdtree.Tree.isNull]

omit [Field K] in
/-- One node of a tree faces the target: the one below which it would hang. -/
theorem faces_iff (hnodup : t.nodes.Nodup) {target : Point K} :
    v ∈ t.nodes ∧ Faces target v t ↔ parentOf target t = some v := by
  induction t with
  | null => simp [Kdtree.Tree.nodes, parentOf]
  | node l u s r ihl ihr =>
    obtain ⟨hl, hur, hapart⟩ := nodup_append.mp hnodup
    obtain ⟨hu, hr⟩ := nodup_cons.mp hur
    specialize ihl hl
    specialize ihr hr
    have hnear : parentOf target (.node l u s r) =
        (parentOf target (nearChild target l u s r)).or (some u) := by
      rw [parentOf, nearChild]
      split <;> rfl
    rw [hnear, or_eq_some_iff, parentOf_eq_none, some_inj]
    constructor
    · rintro ⟨hmem, ⟨hleft, hright, hown⟩, hfl, hfr⟩
      rcases mem_append.mp hmem with hvl | hv
      · rw [nearChild, if_pos (hleft hvl)]
        exact .inl (ihl.mp ⟨hvl, hfl⟩)
      · rcases mem_cons.mp hv with rfl | hvr
        · exact .inr ⟨hown rfl, rfl⟩
        · rw [nearChild, if_neg (hright hvr).not_ge]
          exact .inl (ihr.mp ⟨hvr, hfr⟩)
    · rintro (hparent | ⟨hnull, rfl⟩)
      · have hmem := parentOf_mem hparent
        by_cases hside : s.coord target ≤ s.coord u.pos
        · rw [nearChild, if_pos hside] at hparent hmem
          have hvu : v ≠ u := fun heq => hapart v hmem u (by simp) heq
          have hvr : v ∉ r.nodes := fun hvr => hapart v hmem v (by simp [hvr]) rfl
          exact ⟨mem_append_left _ hmem, ⟨fun _ => hside, fun h => absurd h hvr,
            fun h => absurd h hvu⟩, (ihl.mpr hparent).2, faces_of_notMem target hvr⟩
        · rw [nearChild, if_neg hside] at hparent hmem
          have hvu : v ≠ u := fun heq => hu (heq ▸ hmem)
          have hvl : v ∉ l.nodes := fun hvl => hapart v hvl v (by simp [hmem]) rfl
          exact ⟨mem_append_right _ (mem_cons_of_mem _ hmem), ⟨fun h => absurd h hvl,
            fun _ => not_le.mp hside, fun h => absurd h hvu⟩, faces_of_notMem target hvl,
            (ihr.mpr hparent).2⟩
      · have hvl : u ∉ l.nodes := fun hvl => hapart u hvl u (by simp) rfl
        exact ⟨by simp [Kdtree.Tree.nodes], ⟨fun h => absurd h hvl, fun h => absurd h hu,
          fun _ => hnull⟩, faces_of_notMem target hvl, faces_of_notMem target hu⟩

theorem createKdtree_nodup (pblk : PlanningMapBlock K) : (createKdtree q pblk).nodes.Nodup :=
  (nodes_doBuildKdtree_perm q _).nodup_iff.mpr (nodup_table _)

/-- The root of the tree has a child on the side of the target, and there is a nearest node of the
block that no line of the tree separates from the target and that has no child on its side. -/
def MeetsNearby (q : Qsort (Kdtree.Node K)) (pblk : PlanningMapBlock K) (target : Point K) : Prop :=
  HasNearChild target (createKdtree q pblk) ∧ ∃ v ∈ (createKdtree q pblk).nodes,
    (∀ m ∈ pblk.nodelist, distanceSq v.pos target ≤ distanceSq m.pos target) ∧
    Faces target v (createKdtree q pblk)

/-- A nearest node of the block is returned just if a nearest one faces the target in the tree, and
the target does not hang at the root; for an empty block neither holds. -/
theorem returnsNearest_iff (q : Qsort (Kdtree.Node K)) (pblk : PlanningMapBlock K)
    (target : Point K) : ReturnsNearest q pblk target ↔ MeetsNearby q pblk target := by
  by_cases hne : pblk.nodelist = []
  · refine iff_of_false ?_ fun h => ?_
    · rintro ⟨pnode, n, -, hn, -⟩
      simp [hne] at hn
    · rw [MeetsNearby, createKdtree_of_nil hne] at h
      exact h.1
  obtain ⟨v, hparent, hfound, hempty⟩ := nearbyInTree_eq target (createKdtree_isNull q hne)
  obtain ⟨n, hn, hpos⟩ := getElem?_of_mem_createKdtree (parentOf_mem hparent)
  have hfaces : ∀ {v'}, v' ∈ (createKdtree q pblk).nodes ∧ Faces target v' (createKdtree q pblk) ↔
      v' = v := fun {v'} => by
    rw [faces_iff (createKdtree_nodup q pblk), hparent, some_inj, eq_comm]
  constructor
  · rintro ⟨pnode, m, hm, hplace, hnearest⟩
    have hchild : HasNearChild target (createKdtree q pblk) := by
      by_contra hno
      rw [getNearbyNode, hempty hno] at hm
      cases hm
    rw [getNearbyNode, hfound hchild] at hm
    obtain ⟨rfl, hd⟩ := Nearby.found.inj hm
    obtain ⟨hmem, hface⟩ := hfaces.mpr rfl
    exact ⟨hchild, v, hmem, hd ▸ hnearest, hface⟩
  · rintro ⟨hchild, v', hmem, hnearest, hface⟩
    obtain rfl := hfaces.mp ⟨hmem, hface⟩
    refine ⟨v'.id, n, ?_, hn, ?_⟩
    · rw [getNearbyNode, hfound hchild, hpos]
    · rwa [hpos]

/-- Nodes at (0, 0) and (2, 1), and a target at the second: the first is returned. -/
theorem not_returnsNearest :
    ¬ ∀ (q : Qsort (Kdtree.Node ℚ)) (pblk : PlanningMapBlock ℚ) (target : Point ℚ),
        pblk.nodelist ≠ [] → ReturnsNearest q pblk target := by
  intro hall
  let pblk : PlanningMapBlock ℚ := ⟨0, 0, 0, 2, 2, [⟨7, 0, 0, 0, 0, []⟩, ⟨8, 2, 1, 0, 1, []⟩]⟩
  obtain ⟨pnode, n, hfound, hplace, hnearest⟩ :=
    hall (.insertion _) pblk ⟨2, 1⟩ (cons_ne_nil _ _)
  have hfirst : getNearbyNode (.insertion _) pblk ⟨2, 1⟩ = .found 0 5 := by
    show nearbyInTree _ (buildKdtree (.insertion _) [⟨0, 0⟩, ⟨2, 1⟩]) = _
    rw [buildKdtree_two]
    decide +kernel
  obtain ⟨-, hd⟩ := Nearby.found.inj (hfirst.symm.trans hfound)
  have hsecond : distanceSq n.pos ⟨2, 1⟩ ≤ distanceSq (⟨2, 1⟩ : Point ℚ) ⟨2, 1⟩ :=
    hnearest ⟨8, 2, 1, 0, 1, []⟩ (by simp [pblk])
  rw [← hd] at hsecond
  exact absurd hsecond (by decide +kernel)

end V2I.OsmParser
