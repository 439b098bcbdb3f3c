import V2I.OsmParser.Planning.Nearby

/-!
# V2I.OsmParser.Planning.Road

`planning_map::planning_road`: a route is put together over the levels. Each level looks for nodes
near to the two points and for partial paths from them to the two end nodes remembered.

The search for a path (`calc_dependblk_nodes`) is a parameter, of which a path between its two
arguments or nothing is asked. Coordinates are rationals.
-/

namespace V2I.OsmParser

open List Option

namespace PlanningMapLevel

/-- An edge of the level leads from one node to the other. -/
def HasEdge (lvl : PlanningMapLevel ℚ) (u v : ℤ) : Prop :=
  ∃ n ∈ lvl.nodes, ∃ e ∈ n.edgelist,
    lvl.uidOf e.startNode = some u ∧ lvl.uidOf e.endNode = some v

instance (lvl : PlanningMapLevel ℚ) (u v : ℤ) : Decidable (lvl.HasEdge u v) :=
  inferInstanceAs (Decidable (∃ n ∈ lvl.nodes, ∃ e ∈ n.edgelist, _))

/-- The node that `get_nearby_node` finds in the block of a point. -/
def nearNode (q : Qsort (Kdtree.Node ℚ)) (lvl : PlanningMapLevel ℚ) (lat lon : ℚ) :
    Option (PlanningMapNode ℚ) :=
  match lvl.findBlock lat lon with
  | some (some b) =>
      match lvl.blocks[b]? with
      | some pblk =>
          match getNearbyNode q pblk ⟨lat, lon⟩ with
          | .found pnode _ => pblk.nodelist[pnode]?
          | .noTree | .emptyStack => none
      | none => none
  | _ => none

end PlanningMapLevel

/-- `calc_dependblk_nodes`: the nodes it appends for a level, two positions and two uids. -/
abbrev CalcDependblkNodes :=
  PlanningMapLevel ℚ → (lat1 lon1 lat2 lon2 : ℚ) → (nodeuid1 nodeuid2 : ℤ) → List ℤ

/-- `*pnode1`, `*pnode2` and the route so far. -/
structure Route where
  pnode1 : Option (PlanningMapNode ℚ)
  pnode2 : Option (PlanningMapNode ℚ)
  nodes : List ℤ

section

variable (calcNodes : CalcDependblkNodes) (lvl : PlanningMapLevel ℚ)

/-- The part of `planning_nodes` for the first point. -/
def joinFirst (near1 : PlanningMapNode ℚ) (r : Route) : Route :=
  match r.pnode1 with
  | none => r
  | some p =>
      if p.uid = near1.uid then r
      else
        let nearnodes := calcNodes lvl near1.lat near1.lon p.lat p.lon near1.uid p.uid
        if nearnodes = [] then r
        else { r with pnode1 := some near1, nodes := nearnodes ++ r.nodes }

/-- The part of `planning_nodes` for the second point. -/
def joinSecond (near1 near2 : PlanningMapNode ℚ) (r : Route) : Route :=
  match r.pnode2 with
  | none => r
  | some p =>
      if p.uid = near2.uid then r
      else
        -- the path starts at the node for the first point
        let nearnodes := calcNodes lvl near2.lat near2.lon p.lat p.lon near1.uid p.uid
        let nodes := r.nodes ++ nearnodes
        if nearnodes = [] then { r with nodes := nodes }
        else { r with pnode2 := some near2, nodes := nearnodes ++ nodes }

variable (q : Qsort (Kdtree.Node ℚ)) (lat1 lon1 lat2 lon2 : ℚ)

/-- `planning_nodes` of one level, none where a node near to a point is not found. -/
def planningNodes (r : Route) : Option (Route) :=
  match lvl.nearNode q lat1 lon1, lvl.nearNode q lat2 lon2 with
  | some near1, some near2 =>
      if r.pnode1.isNone ∧ r.pnode2.isNone then
        let nodes := r.nodes ++ calcNodes lvl lat1 lon1 lat2 lon2 near1.uid near2.uid
        some (if nodes = [] then { r with nodes := nodes } else ⟨some near1, some near2, nodes⟩)
      else some (joinSecond calcNodes lvl near1 near2 (joinFirst calcNodes lvl near1 r))
  | _, _ => none

end

/-- The levels of `planning_road`, one after the other. -/
def planningLevels (calcNodes : CalcDependblkNodes) (q : Qsort (Kdtree.Node ℚ))
    (lat1 lon1 lat2 lon2 : ℚ) : List (PlanningMapLevel ℚ) → Route → Option (Route)
  | [], r => some r
  | lvl :: lvls, r =>
      match planningNodes calcNodes lvl q lat1 lon1 lat2 lon2 r with
      | none => none
      | some r => planningLevels calcNodes q lat1 lon1 lat2 lon2 lvls r

/-- `planning_road` -/
def planningRoad (calcNodes : CalcDependblkNodes) (q : Qsort (Kdtree.Node ℚ)) (m : PlanningMap ℚ)
    (lat1 lon1 lat2 lon2 : ℚ) : Option (List ℤ) :=
  (planningLevels calcNodes q lat1 lon1 lat2 lon2 m ⟨none, none, []⟩).map (·.nodes)

/-! ## connected routes -/

/-- A path of the level from one node to the other. -/
structure IsPath (lvl : PlanningMapLevel ℚ) (u v : ℤ) (path : List ℤ) : Prop where
  head : path.head? = some u
  last : path.getLast? = some v
  chain : path.IsChain lvl.HasEdge

/-- `calc_dependblk_nodes` finds a path between the two nodes, or nothing. -/
def FindsPaths (calcNodes : CalcDependblkNodes) (m : PlanningMap ℚ) : Prop :=
  ∀ lvl ∈ m, ∀ lat1 lon1 lat2 lon2 u v,
    calcNodes lvl lat1 lon1 lat2 lon2 u v = [] ∨
      IsPath lvl u v (calcNodes lvl lat1 lon1 lat2 lon2 u v)

/-- Equal, or joined by an edge of some level. -/
def Linked (m : PlanningMap ℚ) (u v : ℤ) : Prop := u = v ∨ ∃ lvl ∈ m, lvl.HasEdge u v

/-- The node is chosen for a point in some level. -/
def Chosen (q : Qsort (Kdtree.Node ℚ)) (m : PlanningMap ℚ) (lat lon : ℚ) (u : ℤ) : Prop :=
  ∃ lvl ∈ m, ∃ n, lvl.nearNode q lat lon = some n ∧ n.uid = u

/-- Nothing, or a connected walk from a node chosen for the first point to one chosen for the
second. -/
def Connected (q : Qsort (Kdtree.Node ℚ)) (m : PlanningMap ℚ) (lat1 lon1 lat2 lon2 : ℚ)
    (nodes : List ℤ) : Prop :=
  nodes = [] ∨
    (∃ u, nodes.head? = some u ∧ Chosen q m lat1 lon1 u) ∧
    (∃ u, nodes.getLast? = some u ∧ Chosen q m lat2 lon2 u) ∧ nodes.IsChain (Linked m)

/-! ## when a route is connected -/

/-- The block of the point has a tree whose root has a child on the side of the point. -/
def NodeFound (q : Qsort (Kdtree.Node ℚ)) (lvl : PlanningMapLevel ℚ) (lat lon : ℚ) : Prop :=
  ∃ b pblk, lvl.findBlock lat lon = some (some b) ∧ lvl.blocks[b]? = some pblk ∧
    HasNearChild ⟨lat, lon⟩ (createKdtree q pblk)

section

variable (calcNodes : CalcDependblkNodes) (q : Qsort (Kdtree.Node ℚ)) (lat1 lon1 lat2 lon2 : ℚ)

/-- The level has no path from its node for the first point to a node, as far as it looks for one:
where the node is not the one near to the second point. -/
def NothingTo (end2 : PlanningMapNode ℚ) (lvl : PlanningMapLevel ℚ) : Prop :=
  ∀ near1 near2, lvl.nearNode q lat1 lon1 = some near1 → lvl.nearNode q lat2 lon2 = some near2 →
    end2.uid ≠ near2.uid →
    calcNodes lvl near2.lat near2.lon end2.lat end2.lon near1.uid end2.uid = []

/-- The first level that has a path from its node for the first point to that for the second is
followed by levels that have none to the latter. -/
def SecondRests : List (PlanningMapLevel ℚ) → Prop
  | [] => True
  | lvl :: lvls =>
      ∀ near1 near2, lvl.nearNode q lat1 lon1 = some near1 → lvl.nearNode q lat2 lon2 = some near2 →
        if calcNodes lvl lat1 lon1 lat2 lon2 near1.uid near2.uid = [] then SecondRests lvls
        else ∀ lvl' ∈ lvls, NothingTo calcNodes q lat1 lon1 lat2 lon2 near2 lvl'

/-- Every level has trees for both points, and the branch for the second point finds nothing. -/
def MeetsRoad (m : PlanningMap ℚ) : Prop :=
  (∀ lvl ∈ m, NodeFound q lvl lat1 lon1 ∧ NodeFound q lvl lat2 lon2) ∧
    SecondRests calcNodes q lat1 lon1 lat2 lon2 m

end

/-! ## one level -/

theorem getNearbyNode_found_iff (q : Qsort (Kdtree.Node ℚ)) (pblk : PlanningMapBlock ℚ)
    (target : Point ℚ) :
    (match getNearbyNode q pblk target with
      | .found pnode _ => pblk.nodelist[pnode]?
      | .noTree | .emptyStack => none) ≠ none ↔ HasNearChild target (createKdtree q pblk) := by
  rw [← exists_found_iff]
  cases getNearbyNode q pblk target with
  | noTree | emptyStack => simp
  | found pnode d => simp [ne_none_iff_exists', -ne_eq]

theorem nearNode_ne_none_iff {q : Qsort (Kdtree.Node ℚ)} {lvl : PlanningMapLevel ℚ} {lat lon : ℚ} :
    lvl.nearNode q lat lon ≠ none ↔ NodeFound q lvl lat lon := by
  unfold NodeFound PlanningMapLevel.nearNode
  match hb : lvl.findBlock lat lon with
  | none | some none => simp
  | some (some b) =>
    cases hblk : lvl.blocks[b]? with
    | none => simp [hblk]
    | some pblk =>
      have hiff : (∃ b' pblk', some (some b) = some (some b') ∧ lvl.blocks[b']? = some pblk' ∧
          HasNearChild ⟨lat, lon⟩ (createKdtree q pblk')) ↔
          HasNearChild ⟨lat, lon⟩ (createKdtree q pblk) := by
        constructor
        · rintro ⟨b', pblk', hb', hblk', hchild⟩
          obtain rfl : b = b' := some.inj (some.inj hb')
          obtain rfl : pblk = pblk' := some.inj (hblk.symm.trans hblk')
          exact hchild
        · exact fun hchild => ⟨b, pblk, rfl, hblk, hchild⟩
      rw [hiff]
      simp only [hblk]
      exact getNearbyNode_found_iff q pblk _

/-- A route that has begun goes from one node remembered to the other, both chosen, and is
connected. -/
structure Begun (q : Qsort (Kdtree.Node ℚ)) (m : PlanningMap ℚ) (lat1 lon1 lat2 lon2 : ℚ)
    (end2 : PlanningMapNode ℚ) (r : Route) : Prop where
  pnode1 : ∃ p, r.pnode1 = some p ∧ Chosen q m lat1 lon1 p.uid ∧ r.nodes.head? = some p.uid
  pnode2 : r.pnode2 = some end2 ∧ Chosen q m lat2 lon2 end2.uid ∧
    r.nodes.getLast? = some end2.uid
  chain : r.nodes.IsChain (Linked m)

/-- The route leads from a node chosen for the second point to one chosen for the first. -/
def LeadsBack (q : Qsort (Kdtree.Node ℚ)) (m : PlanningMap ℚ) (lat1 lon1 lat2 lon2 : ℚ)
    (nodes : List ℤ) : Prop :=
  ∃ u v, Chosen q m lat2 lon2 u ∧ Chosen q m lat1 lon1 v ∧ [u, v] <:+: nodes

section

variable {calcNodes : CalcDependblkNodes} {q : Qsort (Kdtree.Node ℚ)} {m : PlanningMap ℚ}
  {lat1 lon1 lat2 lon2 : ℚ} {lvl : PlanningMapLevel ℚ} {near1 near2 end2 : PlanningMapNode ℚ}
  {r r' : Route}

theorem IsPath.linked {u v : ℤ} {path : List ℤ} (h : IsPath lvl u v path) (hlvl : lvl ∈ m) :
    path.IsChain (Linked m) :=
  h.chain.imp fun _ _ hedge => .inr ⟨lvl, hlvl, hedge⟩

/-- A path to the first node of the route is put in front of it. -/
theorem Begun.joinFirst (hcalc : FindsPaths calcNodes m) (hlvl : lvl ∈ m)
    (hnear : Chosen q m lat1 lon1 near1.uid) (h : Begun q m lat1 lon1 lat2 lon2 end2 r) :
    Begun q m lat1 lon1 lat2 lon2 end2 (joinFirst calcNodes lvl near1 r) := by
  obtain ⟨p, hp, -, hhead⟩ := h.pnode1
  obtain ⟨hp2, hchosen, hlast⟩ := h.pnode2
  unfold OsmParser.joinFirst
  simp only [hp]
  split_ifs with hsame hnothing
  · exact h
  · exact h
  · have hpath := (hcalc lvl hlvl near1.lat near1.lon p.lat p.lon near1.uid p.uid).resolve_left
      hnothing
    refine ⟨⟨near1, rfl, hnear, by simp [head?_append, hpath.head]⟩,
      ⟨hp2, hchosen, by simp [getLast?_append, hlast]⟩, ?_⟩
    rw [isChain_append, hpath.last, hhead]
    refine ⟨hpath.linked hlvl, h.chain, ?_⟩
    rintro _ ⟨⟩ _ ⟨⟩
    exact .inl rfl

/-- The branch for the second point does nothing, or puts a path from the first point's node behind
the last node of the route. -/
theorem Begun.joinSecond (near1 near2 : PlanningMapNode ℚ) (hcalc : FindsPaths calcNodes m)
    (hlvl : lvl ∈ m) (h : Begun q m lat1 lon1 lat2 lon2 end2 r) :
    (end2.uid ≠ near2.uid →
        calcNodes lvl near2.lat near2.lon end2.lat end2.lon near1.uid end2.uid = []) ∧
      joinSecond calcNodes lvl near1 near2 r = r ∨
    ¬ (end2.uid ≠ near2.uid →
        calcNodes lvl near2.lat near2.lon end2.lat end2.lon near1.uid end2.uid = []) ∧
      [end2.uid, near1.uid] <:+: (joinSecond calcNodes lvl near1 near2 r).nodes := by
  obtain ⟨hp2, -, hlast⟩ := h.pnode2
  unfold OsmParser.joinSecond
  simp only [hp2]
  split_ifs with hsame hnothing
  · exact .inl ⟨fun hne => absurd hsame hne, rfl⟩
  · refine .inl ⟨fun _ => hnothing, ?_⟩
    rw [hnothing, append_nil, ← hp2]
  · refine .inr ⟨fun himp => hnothing (himp hsame), ?_⟩
    have hpath := (hcalc lvl hlvl near2.lat near2.lon end2.lat end2.lon near1.uid
      end2.uid).resolve_left hnothing
    obtain ⟨before, hbefore⟩ := getLast?_eq_some_iff.mp hlast
    obtain ⟨after, hafter⟩ := head?_eq_some_iff.mp hpath.head
    refine ⟨calcNodes lvl near2.lat near2.lon end2.lat end2.lon near1.uid end2.uid ++ before,
      after, ?_⟩
    rw [hbefore]
    nth_rewrite 3 [hafter]
    simp

/-- The nodes that the two points have in a level, where it gives a result. -/
theorem exists_near_of_planningNodes
    (hstep : planningNodes calcNodes lvl q lat1 lon1 lat2 lon2 r = some r') :
    ∃ near1 near2, lvl.nearNode q lat1 lon1 = some near1 ∧ lvl.nearNode q lat2 lon2 = some near2 ∧
      r' = if r.pnode1.isNone ∧ r.pnode2.isNone then
          let nodes := r.nodes ++ calcNodes lvl lat1 lon1 lat2 lon2 near1.uid near2.uid
          if nodes = [] then { r with nodes := nodes } else ⟨some near1, some near2, nodes⟩
        else joinSecond calcNodes lvl near1 near2 (joinFirst calcNodes lvl near1 r) := by
  delta planningNodes at hstep
  split at hstep
  · next near1 near2 hnear1 hnear2 =>
    refine ⟨near1, near2, hnear1, hnear2, ?_⟩
    split_ifs at hstep ⊢
    all_goals exact (some.inj hstep).symm
  · cases hstep

/-- **One level** of a route that has begun. -/
theorem planningNodes_begun (hcalc : FindsPaths calcNodes m) (hlvl : lvl ∈ m)
    (h : Begun q m lat1 lon1 lat2 lon2 end2 r)
    (hstep : planningNodes calcNodes lvl q lat1 lon1 lat2 lon2 r = some r') :
    NothingTo calcNodes q lat1 lon1 lat2 lon2 end2 lvl ∧ Begun q m lat1 lon1 lat2 lon2 end2 r' ∨
    ¬ NothingTo calcNodes q lat1 lon1 lat2 lon2 end2 lvl ∧
      LeadsBack q m lat1 lon1 lat2 lon2 r'.nodes := by
  obtain ⟨near1, near2, hnear1, hnear2, rfl⟩ := exists_near_of_planningNodes hstep
  obtain ⟨p, hp, -⟩ := h.pnode1
  have hnothing : NothingTo calcNodes q lat1 lon1 lat2 lon2 end2 lvl ↔ (end2.uid ≠ near2.uid →
      calcNodes lvl near2.lat near2.lon end2.lat end2.lon near1.uid end2.uid = []) := by
    simp [NothingTo, hnear1, hnear2]
  have hchosen1 : Chosen q m lat1 lon1 near1.uid := ⟨lvl, hlvl, near1, hnear1, rfl⟩
  have hfirst := h.joinFirst hcalc hlvl hchosen1
  rw [if_neg (by simp [hp]), hnothing]
  rcases hfirst.joinSecond near1 near2 hcalc hlvl with
    ⟨hrests, hsame⟩ | ⟨hfinds, hinfix⟩
  · rw [hsame]
    exact .inl ⟨hrests, hfirst⟩
  · exact .inr ⟨hfinds, end2.uid, near1.uid, h.pnode2.2.1, hchosen1, hinfix⟩

/-! ## all levels -/

/-- What a route has, it keeps. -/
theorem planningNodes_isInfix
    (hstep : planningNodes calcNodes lvl q lat1 lon1 lat2 lon2 r = some r') :
    r.nodes <:+: r'.nodes := by
  obtain ⟨near1, near2, -, -, rfl⟩ := exists_near_of_planningNodes hstep
  have hfirst : r.nodes <:+: (joinFirst calcNodes lvl near1 r).nodes := by
    unfold joinFirst
    split
    · exact infix_rfl
    · dsimp only
      split_ifs
      · exact infix_rfl
      · exact infix_rfl
      · exact (suffix_append ..).isInfix
  split_ifs
  · dsimp only
    split_ifs
    · exact (prefix_append ..).isInfix
    · exact (prefix_append ..).isInfix
  · refine hfirst.trans ?_
    unfold joinSecond
    split
    · exact infix_rfl
    · dsimp only
      split_ifs
      · exact infix_rfl
      · exact (prefix_append ..).isInfix
      · exact ((prefix_append ..).isInfix).trans (suffix_append ..).isInfix

variable {lvls : List (PlanningMapLevel ℚ)}

-- in brackets, or the attribute for `rfl` evaluates `planningNodes`
theorem planningLevels_cons :
    planningLevels calcNodes q lat1 lon1 lat2 lon2 (lvl :: lvls) r =
      match planningNodes calcNodes lvl q lat1 lon1 lat2 lon2 r with
      | none => none
      | some r => planningLevels calcNodes q lat1 lon1 lat2 lon2 lvls r := (rfl)

theorem planningLevels_isInfix
    (hrun : planningLevels calcNodes q lat1 lon1 lat2 lon2 lvls r = some r') :
    r.nodes <:+: r'.nodes := by
  induction lvls generalizing r with
  | nil =>
    cases hrun
    exact infix_rfl
  | cons lvl lvls ih =>
    rw [planningLevels_cons] at hrun
    split at hrun
    · cases hrun
    · next hstep => exact (planningNodes_isInfix hstep).trans (ih hrun)

/-- The levels give a result where each of them has the nodes for the points. -/
theorem planningLevels_isSome_iff (lvls : List (PlanningMapLevel ℚ)) (r : Route) :
    (∃ r', planningLevels calcNodes q lat1 lon1 lat2 lon2 lvls r = some r') ↔
      ∀ lvl ∈ lvls, NodeFound q lvl lat1 lon1 ∧ NodeFound q lvl lat2 lon2 := by
  induction lvls generalizing r with
  | nil => exact iff_of_true ⟨r, rfl⟩ (forall_mem_nil _)
  | cons lvl lvls ih =>
    rw [planningLevels_cons, forall_mem_cons, ← nearNode_ne_none_iff, ← nearNode_ne_none_iff]
    delta planningNodes
    cases hnear1 : lvl.nearNode q lat1 lon1 with
    | none => simp
    | some near1 =>
      cases hnear2 : lvl.nearNode q lat2 lon2 with
      | none => simp
      | some near2 =>
        simp only [ne_eq, reduceCtorEq, not_false_eq_true, and_self, true_and]
        split_ifs
        · exact ih _
        · exact ih _
        · exact ih _

/-- The levels from a route on that has begun. -/
theorem planningLevels_begun (hcalc : FindsPaths calcNodes m) (hlvls : ∀ lvl ∈ lvls, lvl ∈ m)
    (h : Begun q m lat1 lon1 lat2 lon2 end2 r)
    (hrun : planningLevels calcNodes q lat1 lon1 lat2 lon2 lvls r = some r') :
    (∀ lvl ∈ lvls, NothingTo calcNodes q lat1 lon1 lat2 lon2 end2 lvl) ∧
      Begun q m lat1 lon1 lat2 lon2 end2 r' ∨
    (¬ ∀ lvl ∈ lvls, NothingTo calcNodes q lat1 lon1 lat2 lon2 end2 lvl) ∧
      LeadsBack q m lat1 lon1 lat2 lon2 r'.nodes := by
  induction lvls generalizing r with
  | nil =>
    cases hrun
    exact .inl ⟨by simp, h⟩
  | cons lvl lvls ih =>
    obtain ⟨hlvl, hlvls⟩ := forall_mem_cons.mp hlvls
    rw [planningLevels_cons] at hrun
    rw [forall_mem_cons]
    split at hrun
    · cases hrun
    · next r₁ hstep =>
      rcases planningNodes_begun hcalc hlvl h hstep with
        ⟨hrests, hbegun⟩ | ⟨hfinds, u, v, hu, hv, hback⟩
      · rcases ih hlvls hbegun hrun with ⟨hall, hend⟩ | ⟨hsome, hback⟩
        · exact .inl ⟨⟨hrests, hall⟩, hend⟩
        · exact .inr ⟨fun hall => hsome hall.2, hback⟩
      · exact .inr ⟨fun hall => hfinds hall.1, u, v, hu, hv,
          hback.trans (planningLevels_isInfix hrun)⟩

/-- The levels from the start. -/
theorem planningLevels_start (hcalc : FindsPaths calcNodes m) (hlvls : ∀ lvl ∈ lvls, lvl ∈ m)
    (hrun : planningLevels calcNodes q lat1 lon1 lat2 lon2 lvls ⟨none, none, []⟩ = some r') :
    SecondRests calcNodes q lat1 lon1 lat2 lon2 lvls ∧
      (r'.nodes = [] ∨ ∃ end2, Begun q m lat1 lon1 lat2 lon2 end2 r') ∨
    ¬ SecondRests calcNodes q lat1 lon1 lat2 lon2 lvls ∧
      LeadsBack q m lat1 lon1 lat2 lon2 r'.nodes := by
  induction lvls with
  | nil =>
    cases hrun
    exact .inl ⟨trivial, .inl rfl⟩
  | cons lvl lvls ih =>
    obtain ⟨hlvl, hlvls⟩ := forall_mem_cons.mp hlvls
    rw [planningLevels_cons] at hrun
    split at hrun
    · cases hrun
    · next r₁ hstep =>
      obtain ⟨near1, near2, hnear1, hnear2, rfl⟩ := exists_near_of_planningNodes hstep
      have hrests : SecondRests calcNodes q lat1 lon1 lat2 lon2 (lvl :: lvls) ↔
          if calcNodes lvl lat1 lon1 lat2 lon2 near1.uid near2.uid = [] then
            SecondRests calcNodes q lat1 lon1 lat2 lon2 lvls
          else ∀ lvl' ∈ lvls, NothingTo calcNodes q lat1 lon1 lat2 lon2 near2 lvl' := by
        simp [SecondRests, hnear1, hnear2]
      simp only [isNone_none, and_self, if_true, nil_append] at hrun
      rw [hrests]
      by_cases hnothing : calcNodes lvl lat1 lon1 lat2 lon2 near1.uid near2.uid = []
      · rw [if_pos hnothing, hnothing] at hrun
        rw [if_pos hnothing]
        exact ih hlvls hrun
      · rw [if_neg hnothing] at hrun ⊢
        have hpath := (hcalc lvl hlvl lat1 lon1 lat2 lon2 near1.uid near2.uid).resolve_left hnothing
        have hbegun : Begun q m lat1 lon1 lat2 lon2 near2 ⟨some near1, some near2,
            calcNodes lvl lat1 lon1 lat2 lon2 near1.uid near2.uid⟩ :=
          ⟨⟨near1, rfl, ⟨lvl, hlvl, near1, hnear1, rfl⟩, hpath.head⟩,
            ⟨rfl, ⟨lvl, hlvl, near2, hnear2, rfl⟩, hpath.last⟩, hpath.linked hlvl⟩
        exact (planningLevels_begun hcalc hlvls hbegun hrun).imp_left
          fun ⟨hall, hend⟩ => ⟨hall, .inr ⟨near2, hend⟩⟩

end

/-- A connected route is returned where every level has trees for the points and the branch for the
second point finds nothing; beyond that at most where a node near to the second point is equal to or
joined with one near to the first. -/
theorem connected_of_meets (calcNodes : CalcDependblkNodes) (q : Qsort (Kdtree.Node ℚ))
    (m : PlanningMap ℚ) (lat1 lon1 lat2 lon2 : ℚ) (hcalc : FindsPaths calcNodes m) :
    (MeetsRoad calcNodes q lat1 lon1 lat2 lon2 m →
      ∃ nodes, planningRoad calcNodes q m lat1 lon1 lat2 lon2 = some nodes ∧
        Connected q m lat1 lon1 lat2 lon2 nodes) ∧
    ((∃ nodes, planningRoad calcNodes q m lat1 lon1 lat2 lon2 = some nodes ∧
        Connected q m lat1 lon1 lat2 lon2 nodes) →
      MeetsRoad calcNodes q lat1 lon1 lat2 lon2 m ∨
      (∀ lvl ∈ m, NodeFound q lvl lat1 lon1 ∧ NodeFound q lvl lat2 lon2) ∧
        ∃ u v, Chosen q m lat2 lon2 u ∧ Chosen q m lat1 lon1 v ∧ Linked m u v) := by
  constructor
  · rintro ⟨hfound, hrests⟩
    obtain ⟨r', hrun⟩ := (planningLevels_isSome_iff m ⟨none, none, []⟩).mpr hfound
    refine ⟨r'.nodes, by rw [planningRoad, hrun]; rfl, ?_⟩
    rcases planningLevels_start hcalc (fun _ h => h) hrun with ⟨-, hnil | ⟨end2, hend⟩⟩ | ⟨hnot, -⟩
    · exact .inl hnil
    · obtain ⟨p, -, hchosen, hhead⟩ := hend.pnode1
      exact .inr ⟨⟨p.uid, hhead, hchosen⟩, ⟨end2.uid, hend.pnode2.2.2, hend.pnode2.2.1⟩, hend.chain⟩
    · exact absurd hrests hnot
  · rintro ⟨nodes, hroad, hconnected⟩
    obtain ⟨r', hrun, rfl⟩ := map_eq_some_iff.mp hroad
    have hfound := (planningLevels_isSome_iff m _).mp ⟨r', hrun⟩
    rcases planningLevels_start hcalc (fun _ h => h) hrun with
      ⟨hrests, -⟩ | ⟨-, u, v, hu, hv, hinfix⟩
    · exact .inl ⟨hfound, hrests⟩
    · refine .inr ⟨hfound, u, v, hu, hv, ?_⟩
      rcases hconnected with hnil | ⟨-, -, hchain⟩
      · rw [hnil] at hinfix
        cases infix_nil.mp hinfix
      · have hpair := List.IsChain.infix hchain hinfix
        exact isChain_pair.mp hpair

/-! ## a route that is not connected -/

section

open Kdtree

/-- The tree of two points, the second two to the right of the first and one above it. -/
theorem buildKdtree_pair {a b c d : ℚ} (hc : c = a + 2) (hd : d = b + 1) :
    buildKdtree (Qsort.insertion (Kdtree.Node ℚ)) [⟨a, b⟩, ⟨c, d⟩] =
      .node (.node .null ⟨0, ⟨a, b⟩⟩ .y .null) ⟨1, ⟨c, d⟩⟩ .x .null := by
  subst hc hd
  have hone : chooseSplit (Qsort.insertion (Kdtree.Node ℚ)) [⟨0, ⟨a, b⟩⟩] =
      (.y, [⟨0, ⟨a, b⟩⟩]) := by
    have hvariance : ¬ variance .y [(⟨0, ⟨a, b⟩⟩ : Kdtree.Node ℚ)] <
        variance .x [(⟨0, ⟨a, b⟩⟩ : Kdtree.Node ℚ)] := by
      norm_num [variance, Split.coord]
    simp [chooseSplit, hvariance, Qsort.insertion]
  have htwo : chooseSplit (Qsort.insertion (Kdtree.Node ℚ))
      [⟨0, ⟨a, b⟩⟩, ⟨1, ⟨a + 2, b + 1⟩⟩] = (.x, [⟨0, ⟨a, b⟩⟩, ⟨1, ⟨a + 2, b + 1⟩⟩]) := by
    have hvariance : variance .y [(⟨0, ⟨a, b⟩⟩ : Kdtree.Node ℚ), ⟨1, ⟨a + 2, b + 1⟩⟩] <
        variance .x [(⟨0, ⟨a, b⟩⟩ : Kdtree.Node ℚ), ⟨1, ⟨a + 2, b + 1⟩⟩] := by
      simp only [variance, Split.coord, foldl_cons, foldl_nil, length_cons, length_nil]
      norm_num
      nlinarith
    simp [chooseSplit, hvariance, Qsort.insertion, compareAt, Split.coord,
      List.insertionSort, List.orderedInsert]
  let one : List (Kdtree.Node ℚ) := [⟨0, ⟨a, b⟩⟩]
  let two : List (Kdtree.Node ℚ) := [⟨0, ⟨a, b⟩⟩, ⟨1, ⟨a + 2, b + 1⟩⟩]
  have hdrop1 : (chooseSplit (Qsort.insertion _) one).2.drop (one.length / 2) =
      [⟨0, ⟨a, b⟩⟩] := by
    rw [hone]
    simp [one]
  have hdrop2 : (chooseSplit (Qsort.insertion _) two).2.drop (two.length / 2) =
      [⟨1, ⟨a + 2, b + 1⟩⟩] := by
    rw [htwo]
    simp [two]
  have hleaf : doBuildKdtree (Qsort.insertion _) one = .node .null ⟨0, ⟨a, b⟩⟩ .y .null := by
    rw [doBuildKdtree_eq_node (by simp [one]) hdrop1, hone]
    simp [one]
  change doBuildKdtree _ two = _
  rw [doBuildKdtree_eq_node (by simp [two]) hdrop2, htwo]
  simpa [two] using hleaf

/-- A block of two such nodes: what lies to the left of the second is near to the first. -/
theorem getNearbyNode_pair {a b c d : ℚ} (hc : c = a + 2) (hd : d = b + 1)
    {pblk : PlanningMapBlock ℚ} (hnodes : pblk.nodelist.map (·.pos) = [⟨a, b⟩, ⟨c, d⟩])
    {target : Point ℚ} (hx : target.x ≤ c) :
    ∃ dist, getNearbyNode (Qsort.insertion (Kdtree.Node ℚ)) pblk target = .found 0 dist := by
  refine ⟨distanceSq ⟨a, b⟩ target, ?_⟩
  have hdescend : descend target
      (.node (.node .null ⟨0, ⟨a, b⟩⟩ .y .null) ⟨1, ⟨c, d⟩⟩ .x .null) [] =
      [.node .null ⟨0, ⟨a, b⟩⟩ .y .null,
        .node (.node .null ⟨0, ⟨a, b⟩⟩ .y .null) ⟨1, ⟨c, d⟩⟩ .x .null] := by
    by_cases hy : target.y ≤ b <;> simp [descend, Split.coord, hx, hy]
  rw [getNearbyNode, createKdtree, hnodes, buildKdtree_pair hc hd, nearbyInTree, hdescend]
  rfl

end

/-- An edge between two nodes of a level. -/
def edgeBetween (b i b' i' : ℕ) : PlanningMapEdge ℚ := ⟨0, .placed b i, .placed b' i', 1, 1⟩

/-- The roads 1 - 5 - 2 in a level of two blocks. -/
def firstLevel : PlanningMapLevel ℚ where
  level := 1
  row := 2
  col := 1
  latstep := 5
  lonstep := 3
  minlat := 0
  maxlat := 15
  minlon := -1
  maxlon := 2
  gblAvlnode := []
  blocks := [
    ⟨0, 0, -1, 5, 2, [
      ⟨1, 0, 0, 0, 0, [edgeBetween 0 0 0 1]⟩,
      ⟨5, 2, 1, 0, 1, [edgeBetween 0 1 0 0, edgeBetween 0 1 1 0]⟩]⟩,
    ⟨1, 5, -1, 15, 2, [
      ⟨2, 10, 0, 1, 0, [edgeBetween 1 0 0 1]⟩,
      ⟨8, 12, 1, 1, 1, []⟩]⟩]

/-- The roads 3 - 6 - 2. -/
def secondLevel : PlanningMapLevel ℚ :=
  { firstLevel with
    level := 2
    blocks := [
      ⟨0, 0, -1, 5, 2, [
        ⟨3, 1, 0, 0, 0, [edgeBetween 0 0 0 1]⟩,
        ⟨6, 3, 1, 0, 1, [edgeBetween 0 1 0 0, edgeBetween 0 1 1 1]⟩]⟩,
      ⟨1, 5, -1, 15, 2, [
        ⟨4, 8, -1, 1, 0, []⟩,
        ⟨2, 10, 0, 1, 1, [edgeBetween 1 1 0 1]⟩]⟩] }

/-- The paths of the two levels that are asked for. -/
def pathsOfLevels : CalcDependblkNodes := fun lvl _ _ _ _ u v =>
  if lvl.level = 1 ∧ u = 1 ∧ v = 2 then [1, 5, 2]
  else if lvl.level = 2 ∧ u = 3 ∧ v = 2 then [3, 6, 2]
  else []

theorem findsPaths_pathsOfLevels : FindsPaths pathsOfLevels [firstLevel, secondLevel] := by
  intro lvl hlvl lat1 lon1 lat2 lon2 u v
  simp only [mem_cons, not_mem_nil, or_false] at hlvl
  unfold pathsOfLevels
  split
  · next h =>
    obtain ⟨hlevel, rfl, rfl⟩ := h
    rcases hlvl with rfl | rfl
    · exact .inr ⟨rfl, rfl, by decide +kernel⟩
    · exact absurd hlevel (by decide)
  · split
    · next h =>
      obtain ⟨hlevel, rfl, rfl⟩ := h
      rcases hlvl with rfl | rfl
      · exact absurd hlevel (by decide)
      · exact .inr ⟨rfl, rfl, by decide +kernel⟩
    · exact .inl rfl

/-- The blocks of the point contain nodes on every level. -/
def HasNodes (m : PlanningMap ℚ) (lat lon : ℚ) : Prop :=
  ∀ lvl ∈ m, ∃ b pblk, lvl.findBlock lat lon = some (some b) ∧ lvl.blocks[b]? = some pblk ∧
    pblk.nodelist ≠ []

/-- The nodes of the two points in the two levels. -/
theorem nearNode_levels :
    firstLevel.nearNode (.insertion _) 0 0 = some ⟨1, 0, 0, 0, 0, [edgeBetween 0 0 0 1]⟩ ∧
    firstLevel.nearNode (.insertion _) 10 0 = some ⟨2, 10, 0, 1, 0, [edgeBetween 1 0 0 1]⟩ ∧
    secondLevel.nearNode (.insertion _) 0 0 = some ⟨3, 1, 0, 0, 0, [edgeBetween 0 0 0 1]⟩ ∧
    secondLevel.nearNode (.insertion _) 10 0 = some ⟨4, 8, -1, 1, 0, []⟩ := by
  have hnear : ∀ {lvl : PlanningMapLevel ℚ} {lat lon : ℚ} {b : ℕ} {pblk : PlanningMapBlock ℚ}
      {n : PlanningMapNode ℚ}, lvl.findBlock lat lon = some (some b) → lvl.blocks[b]? = some pblk →
      pblk.nodelist[0]? = some n →
      (∃ c d, c = n.lat + 2 ∧ d = n.lon + 1 ∧
        pblk.nodelist.map (·.pos) = [⟨n.lat, n.lon⟩, ⟨c, d⟩] ∧ lat ≤ c) →
      lvl.nearNode (.insertion _) lat lon = some n := by
    rintro lvl lat lon b pblk n hb hblk hn ⟨c, d, hc, hd, hnodes, hle⟩
    have hx : (⟨lat, lon⟩ : Point ℚ).x ≤ c := hle
    obtain ⟨dist, hdist⟩ := getNearbyNode_pair hc hd hnodes hx
    simp only [PlanningMapLevel.nearNode, hb, hblk, hdist, hn]
  exact ⟨
    hnear (b := 0) (by decide +kernel) rfl rfl ⟨2, 1, by norm_num, by norm_num, rfl, by norm_num⟩,
    hnear (b := 1) (by decide +kernel) rfl rfl ⟨12, 1, by norm_num, by norm_num, rfl, by norm_num⟩,
    hnear (b := 0) (by decide +kernel) rfl rfl ⟨3, 1, by norm_num, by norm_num, rfl, by norm_num⟩,
    hnear (b := 1) (by decide +kernel) rfl rfl ⟨10, 0, by norm_num, by norm_num, rfl, by norm_num⟩⟩

/-- The other way round the second of the levels finds the route, and there is none behind it. -/
theorem connected_of_meets_secondLevel :
    ∃ nodes, planningRoad pathsOfLevels (.insertion _) [secondLevel, firstLevel] 0 0 10 0 =
      some nodes ∧ Connected (.insertion _) [secondLevel, firstLevel] 0 0 10 0 nodes := by
  obtain ⟨h1, h2, h3, h4⟩ := nearNode_levels
  have hpaths : FindsPaths pathsOfLevels [secondLevel, firstLevel] := fun lvl hlvl =>
    findsPaths_pathsOfLevels lvl (by simpa [or_comm] using hlvl)
  have hnone : pathsOfLevels secondLevel 0 0 10 0 3 4 = [] := rfl
  refine (connected_of_meets _ _ _ _ _ _ _ hpaths).1 ⟨?_, ?_⟩
  · simp [← nearNode_ne_none_iff, h1, h2, h3, h4]
  · simp [SecondRests, h1, h2, h3, h4, hnone]

/-- The route from 1 to 2, with the way from 3 to 2 put on both sides. -/
theorem planningRoad_secondLevel :
    planningRoad pathsOfLevels (.insertion _) [firstLevel, secondLevel] 0 0 10 0 =
      some [3, 6, 2, 1, 5, 2, 3, 6, 2] := by
  obtain ⟨h1, h2, h3, h4⟩ := nearNode_levels
  rw [planningRoad, planningLevels_cons]
  simp only [planningLevels_cons]
  delta planningNodes
  simp only [h1, h2, h3, h4]
  rfl

theorem not_connected :
    ¬ ∀ (calcNodes : CalcDependblkNodes) (q : Qsort (Kdtree.Node ℚ)) (m : PlanningMap ℚ)
        (lat1 lon1 lat2 lon2 : ℚ), FindsPaths calcNodes m → HasNodes m lat1 lon1 →
        HasNodes m lat2 lon2 →
        ∃ nodes, planningRoad calcNodes q m lat1 lon1 lat2 lon2 = some nodes ∧
          Connected q m lat1 lon1 lat2 lon2 nodes := by
  intro hall
  have hnodes1 : HasNodes [firstLevel, secondLevel] 0 0 := by
    intro lvl hlvl
    simp only [mem_cons, not_mem_nil, or_false] at hlvl
    rcases hlvl with rfl | rfl
    · exact ⟨0, _, by decide +kernel, rfl, cons_ne_nil _ _⟩
    · exact ⟨0, _, by decide +kernel, rfl, cons_ne_nil _ _⟩
  have hnodes2 : HasNodes [firstLevel, secondLevel] 10 0 := by
    intro lvl hlvl
    simp only [mem_cons, not_mem_nil, or_false] at hlvl
    rcases hlvl with rfl | rfl
    · exact ⟨1, _, by decide +kernel, rfl, cons_ne_nil _ _⟩
    · exact ⟨1, _, by decide +kernel, rfl, cons_ne_nil _ _⟩
  obtain ⟨nodes, hrun, hconnected⟩ := hall pathsOfLevels (.insertion _) [firstLevel, secondLevel]
    0 0 10 0 findsPaths_pathsOfLevels hnodes1 hnodes2
  obtain rfl := some.inj (planningRoad_secondLevel.symm.trans hrun)
  rcases hconnected with hnil | ⟨-, -, hchain⟩
  · cases hnil
  · have hjoint : Linked [firstLevel, secondLevel] 2 1 := by
      simp only [isChain_cons_cons] at hchain
      exact hchain.2.2.1
    exact absurd hjoint (by unfold Linked; decide +kernel)

end V2I.OsmParser
