import Mathlib.Algebra.Order.Field.Basic
import V2I.Lib.Qsort

/-!
# V2I.MapCore.Kdtree

The 2-d tree of `mapcore/inc/kdtree.h`: `build_kdtree` splits a table of nodes at the
median of the coordinate with the larger variance, `kdtree2d_search` looks for the node
nearest to a query that is not yet marked `KNN_selected`.

Coordinates are exact, in any linearly ordered field. A distance is a square root, and
the code only compares distances with each other and with `fabs` of a coordinate
difference; both are comparisons of squares, so the model keeps the square of every
distance (`sqrt_distanceSq_le`, `abs_lt_sqrt_distanceSq` in `V2I.MapCore.Kdtree.Search`
are the two facts). `DBL_MAX` lies above every distance: it is `⊤`.
-/

namespace V2I

/-- A point of the plane. -/
structure Point (K : Type*) where
  x : K
  y : K
  deriving DecidableEq, Repr

namespace Kdtree

variable {K : Type*}

/-- A node of the tree: its index in the table it was built from, and its position. -/
structure Node (K : Type*) where
  id : ℕ
  pos : Point K
  deriving DecidableEq, Repr

/-- The dimension a node splits: `get_split()` is 0 for `x` and 1 for `y`. -/
inductive Split
  | x
  | y
  deriving DecidableEq, Repr

/-- The coordinate of a point in one dimension. -/
def Split.coord : Split → Point K → K
  | .x, p => p.x
  | .y, p => p.y

/-- A node with its split dimension and its two children; `null` is the null pointer. -/
inductive Tree (K : Type*)
  | null
  | node (left : Tree K) (v : Node K) (split : Split) (right : Tree K)
  deriving DecidableEq, Repr

namespace Tree

/-- Is it the null pointer? -/
def isNull : Tree K → Bool
  | null => true
  | node .. => false

/-- All nodes of a tree, in order. -/
def nodes : Tree K → List (Node K)
  | null => []
  | node l v _ r => l.nodes ++ v :: r.nodes

/-- The number of nodes. -/
def size : Tree K → ℕ
  | null => 0
  | node l _ _ r => l.size + r.size + 1

end Tree

/-! ## Building -/

section Build

variable [Field K] [LinearOrder K]

/-- The variance of one coordinate, with the sums of `choose_split`. -/
def variance (s : Split) (exmSet : List (Node K)) : K :=
  let w : K := 1 / (exmSet.length : K)
  let tmp1 := exmSet.foldl (fun acc e => acc + w * s.coord e.pos * s.coord e.pos) 0
  let tmp2 := exmSet.foldl (fun acc e => acc + w * s.coord e.pos) 0
  tmp1 - tmp2 * tmp2

/-- `kdtree_x_compare` and `kdtree_y_compare`. -/
def compareAt (s : Split) (a b : Node K) : Ordering :=
  if s.coord b.pos < s.coord a.pos then .gt
  else if s.coord a.pos < s.coord b.pos then .lt
  else .eq

/-- Choose the dimension to split and sort the table by it. -/
def chooseSplit (q : Qsort (Node K)) (exmSet : List (Node K)) : Split × List (Node K) :=
  let split := if variance .y exmSet < variance .x exmSet then Split.x else Split.y
  (split, q.sort (compareAt split) exmSet)

/-- The element at `size / 2` becomes the root, those before and behind it the subtrees. -/
def doBuildKdtree (q : Qsort (Node K)) (exmSet : List (Node K)) : Tree K :=
  if exmSet.length = 0 then .null
  else
    match h : (chooseSplit q exmSet).2.drop (exmSet.length / 2) with
    | [] => .null
    | v :: right =>
        .node (doBuildKdtree q ((chooseSplit q exmSet).2.take (exmSet.length / 2))) v
          (chooseSplit q exmSet).1 (doBuildKdtree q right)
termination_by exmSet.length
decreasing_by
  · rw [List.length_take]
    omega
  · have hlen := congrArg List.length h
    simp only [chooseSplit, List.length_drop, Qsort.length_sort, List.length_cons] at hlen
    omega

/-- The nodes of a table of points, each with its index. -/
def table (pts : List (Point K)) : List (Node K) :=
  pts.mapIdx fun i p => ⟨i, p⟩

/-- `build_kdtree`. -/
def buildKdtree (q : Qsort (Node K)) (pts : List (Point K)) : Tree K :=
  doBuildKdtree q (table pts)

end Build

/-! ## Searching -/

section Search

variable [Field K] [LinearOrder K]

/-- The square of `distance(x, y)`. -/
def distanceSq (p q : Point K) : K :=
  (p.x - q.x) * (p.x - q.x) + (p.y - q.y) * (p.y - q.y)

/-- The child on the query's side of the splitting line. -/
def nearChild (q : Point K) (l : Tree K) (v : Node K) (s : Split) (r : Tree K) : Tree K :=
  if s.coord q ≤ s.coord v.pos then l else r

/-- The child on the other side. -/
def farChild (q : Point K) (l : Tree K) (v : Node K) (s : Split) (r : Tree K) : Tree K :=
  if s.coord q ≤ s.coord v.pos then r else l

omit [Field K] in
theorem size_farChild_le (q : Point K) (l : Tree K) (v : Node K) (s : Split) (r : Tree K) :
    (farChild q l v s r).size ≤ l.size + r.size := by
  unfold farChild
  split <;> omega

/-- Walk down to the query's place, pushing every node passed on `search_path`. -/
def descend (q : Point K) : Tree K → List (Tree K) → List (Tree K)
  | .null, path => path
  | .node l v s r, path =>
      if s.coord q ≤ s.coord v.pos then descend q l (.node l v s r :: path)
      else descend q r (.node l v s r :: path)

/-- The local variables `nearest` and `d`. -/
structure Best (K : Type*) where
  nearest : Node K
  /-- the square of `d` -/
  d : WithTop K

variable (selected : ℕ → Bool) (q : Point K)

/-- The distance of a node, `DBL_MAX` when it is already selected. -/
def tmp (v : Node K) : WithTop K :=
  if selected v.id then ⊤ else ((distanceSq v.pos q : K) : WithTop K)

/-- Keep the nearer of the best node so far and `v`. -/
def improve (b : Best K) (v : Node K) : Best K :=
  if tmp selected q v < b.d then ⟨v, tmp selected q v⟩ else b

/-- Does the circle around the query cross the splitting line of `v`? -/
def crosses (b : Best K) (v : Node K) (s : Split) : Prop :=
  (((s.coord v.pos - s.coord q) * (s.coord v.pos - s.coord q) : K) : WithTop K) < b.d

instance (b : Best K) (v : Node K) (s : Split) : Decidable (crosses q b v s) :=
  inferInstanceAs (Decidable (_ < _))

/-- Re-walk the search path: pop a node, compare it, and push the child on the other
side of its splitting line when the circle reaches it. -/
def rewalk : List (Tree K) → Best K → Best K
  | [], b => b
  | .null :: path, b => rewalk path b
  | .node l v s r :: path, b =>
      if l.isNull ∧ r.isNull then rewalk path (improve selected q b v)
      else if crosses q b v s then
        if (farChild q l v s r).isNull then rewalk path (improve selected q b v)
        else rewalk (farChild q l v s r :: path) (improve selected q b v)
      else rewalk path b
termination_by path _ => (path.map fun t => t.size + 1).sum
decreasing_by
  all_goals simp only [List.map_cons, List.sum_cons, Tree.size]
  · omega
  · omega
  · omega
  · have := size_farChild_le q l v s r
    omega
  · omega

/-- What the search hands back: the node pointer, the square of `dist`, and the flags
after `KNN_select` on the node. -/
structure Found (K : Type*) where
  nearest : Option (Node K)
  dist : WithTop K
  selected : ℕ → Bool

/-- `kdtree2d_search`. A null tree leaves the search path empty, and `top` of an empty
stack has no defined result. -/
def kdtree2dSearch (tree : Tree K) : Option (Found K) :=
  match descend q tree [] with
  | .node _ v _ _ :: path =>
      let b := rewalk selected q path ⟨v, tmp selected q v⟩
      some ⟨some b.nearest, b.d, Function.update selected b.nearest.id true⟩
  | _ => none

end Search

end Kdtree

end V2I

/-!
## Building a tree

What `build_kdtree` builds, whichever dimension `choose_split` chooses for each subtree: the
tree holds the nodes of the table, each once, and the nodes of the subtrees lie on their side of
every node. So it does not matter how the sums of the variances are rounded.
-/

namespace V2I.Kdtree

variable {K : Type*}

/-- At every node, the left subtree lies at or below it in the split dimension, the
right subtree at or above it. -/
def Ordered [LE K] : Tree K → Prop
  | .null => True
  | .node l v s r =>
      (∀ u ∈ l.nodes, s.coord u.pos ≤ s.coord v.pos) ∧
      (∀ u ∈ r.nodes, s.coord v.pos ≤ s.coord u.pos) ∧ Ordered l ∧ Ordered r

/-! ## Any choice of the dimension -/

section

variable [LinearOrder K]

/-- `do_build_kdtree` with the dimension that `choose` finds for a table. -/
def doBuildKdtreeBy (choose : List (Node K) → Split) (q : Qsort (Node K))
    (exmSet : List (Node K)) : Tree K :=
  if exmSet.length = 0 then .null
  else
    match h : (q.sort (compareAt (choose exmSet)) exmSet).drop (exmSet.length / 2) with
    | [] => .null
    | v :: right =>
        .node (doBuildKdtreeBy choose q
            ((q.sort (compareAt (choose exmSet)) exmSet).take (exmSet.length / 2))) v
          (choose exmSet) (doBuildKdtreeBy choose q right)
termination_by exmSet.length
decreasing_by
  · rw [List.length_take]
    omega
  · have hlen := congrArg List.length h
    simp only [List.length_drop, Qsort.length_sort, List.length_cons] at hlen
    omega

/-- `build_kdtree(tree, table, count)`: the tree afterwards. -/
def buildKdtreeBy (choose : List (Node K) → Split) (q : Qsort (Node K)) (tree : Tree K)
    (pts : List (Point K)) : Tree K :=
  if pts.length = 0 then tree else doBuildKdtreeBy choose q (table pts)

variable (choose : List (Node K) → Split) (q : Qsort (Node K))

theorem nodes_doBuildKdtreeBy_perm (l : List (Node K)) :
    (doBuildKdtreeBy choose q l).nodes.Perm l := by
  fun_induction doBuildKdtreeBy choose q l with
  | case1 l h =>
      rw [List.length_eq_zero_iff.mp h]
      exact List.Perm.refl _
  | case2 l h hdrop =>
      have hlen := congrArg List.length hdrop
      simp only [List.length_drop, Qsort.length_sort, List.length_nil] at hlen
      omega
  | case3 l h v right hdrop ihl ihr =>
      have hsplit : (q.sort (compareAt (choose l)) l).take (l.length / 2) ++ v :: right =
          q.sort (compareAt (choose l)) l := by
        rw [← hdrop, List.take_append_drop]
      have hparts := ihl.append (ihr.cons v)
      rw [hsplit] at hparts
      exact hparts.trans (q.perm _ l)

theorem ordered_doBuildKdtreeBy (l : List (Node K)) : Ordered (doBuildKdtreeBy choose q l) := by
  fun_induction doBuildKdtreeBy choose q l with
  | case1 l h => trivial
  | case2 l h hdrop => trivial
  | case3 l h v right hdrop ihl ihr =>
      have hsorted : (q.sort (compareAt (choose l)) l).Pairwise fun a b =>
          (choose l).coord a.pos ≤ (choose l).coord b.pos := q.pairwise_sort (fun _ _ => rfl) l
      rw [← List.take_append_drop (l.length / 2) (q.sort (compareAt (choose l)) l), hdrop,
        List.pairwise_append] at hsorted
      obtain ⟨-, hright, hcross⟩ := hsorted
      refine ⟨?_, ?_, ihl, ihr⟩
      · intro u hu
        have hu' := (nodes_doBuildKdtreeBy_perm choose q _).mem_iff.mp hu
        exact hcross u hu' v List.mem_cons_self
      · intro u hu
        have hu' := (nodes_doBuildKdtreeBy_perm choose q _).mem_iff.mp hu
        exact (List.pairwise_cons.mp hright).1 u hu'

omit [LinearOrder K] in
theorem nodup_table (pts : List (Point K)) : (table pts).Nodup := by
  have hids : (table pts).map Node.id = List.range pts.length :=
    List.ext_getElem (by simp [table]) fun i hi hi' => by simp [table]
  exact List.Nodup.of_map Node.id (hids ▸ List.nodup_range)

/-- **The tree holds every point of the table exactly once, and at every node the points of the
subtrees lie on their side of it.** -/
theorem build_kdtree_spec (pts : List (Point K)) :
    (buildKdtreeBy choose q .null pts).nodes.Perm (table pts) ∧
    (buildKdtreeBy choose q .null pts).nodes.Nodup ∧
    Ordered (buildKdtreeBy choose q .null pts) := by
  have hperm : (buildKdtreeBy choose q .null pts).nodes.Perm (table pts) := by
    unfold buildKdtreeBy
    split
    · next h => rw [List.length_eq_zero_iff.mp h]; exact List.Perm.refl _
    · exact nodes_doBuildKdtreeBy_perm choose q _
  refine ⟨hperm, hperm.nodup_iff.mpr (nodup_table pts), ?_⟩
  unfold buildKdtreeBy
  split
  · trivial
  · exact ordered_doBuildKdtreeBy choose q _

end

/-! ## The choice of the code -/

section

variable [Field K] [LinearOrder K]

/-- `choose_split` chooses by exact sums. -/
theorem doBuildKdtree_eq_by (q : Qsort (Node K)) (l : List (Node K)) :
    doBuildKdtree q l = doBuildKdtreeBy (fun l => (chooseSplit q l).1) q l := by
  fun_induction doBuildKdtree q l with
  | case1 l h =>
      rw [doBuildKdtreeBy, if_pos h]
  | case2 l h hdrop =>
      have hlen := congrArg List.length hdrop
      simp only [chooseSplit, List.length_drop, Qsort.length_sort, List.length_nil] at hlen
      omega
  | case3 l h v right hdrop ihl ihr =>
      rw [doBuildKdtreeBy, if_neg h]
      split
      · next hdrop' => exact absurd (hdrop.symm.trans hdrop') (by simp)
      · next hdrop' =>
          obtain ⟨rfl, rfl⟩ := List.cons.inj (hdrop.symm.trans hdrop')
          rw [ihl, ihr]
          rfl

end

end V2I.Kdtree
