import V2I.MapCore.HdmapQuery.Marks

/-!
# V2I.MapCore.HdmapQuery.Nearest

What `get_neareast_points` stores. The nodes that the searches return come nearest first, and
each one within the limit replaces the point stored for its lane: the last one stays, which is
the farthest.
-/

namespace V2I.HdmapQuery

open Kdtree List

variable {K : Type} [Field K] [LinearOrder K]

/-- The nodes that up to `n` searches return one after the other, with their distances. -/
def searches (tree : Kdtree.Tree K) (q : Point K) : ℕ → (ℕ → Bool) → List (Node K × WithTop K)
  | 0, _ => []
  | n + 1, selected =>
      match kdtree2dSearch selected q tree with
      | none => []
      | some found =>
          match found.nearest with
          | none => []
          | some v => (v, found.dist) :: searches tree q n found.selected

namespace HdmapImpl

variable (m : HdmapImpl K)

/-- The nodes that a call of `get_neareast_points` on clear flags looks at. -/
def returnedNodes (src : Point3d K) : List (Node K × WithTop K) :=
  searches m.lanebdyKdtree ⟨src.x, src.y⟩ m.lanesegs.length fun _ => false

/-- The lane segment of a node. -/
def lanesegOf (e : Node K × WithTop K) : ℕ := (m.bdyPoint e.1.id).lanesegIndex

/-- What is stored for a node. -/
def segmentPoint (e : Node K × WithTop K) : SegmentPoint K :=
  ⟨(m.bdyPoint e.1.id).pt, (m.bdyPoint e.1.id).s⟩

/-- The nodes of a lane segment among `l` that lie within the limit. -/
def within (distance : K) (lane : ℕ) (l : List (Node K × WithTop K)) : List (Node K × WithTop K) :=
  l.filter fun e => m.lanesegOf e = lane ∧ ¬ farther e.2 distance

/-- What the rounds make of the nodes that are returned. -/
def store (distance : K) (points : StdMap ℕ (SegmentPoint K)) (e : Node K × WithTop K) :
    StdMap ℕ (SegmentPoint K) :=
  if farther e.2 distance then points else points.set (m.lanesegOf e) (m.segmentPoint e)

/-- For a lane segment with nodes within the limit the point of one that is the nearest of all its
nodes is stored, and nothing for another. -/
def StoresNearest (src : Point3d K) (distance : K) (points points' : StdMap ℕ (SegmentPoint K)) :
    Prop :=
  ∀ lane,
    (m.within distance lane (m.returnedNodes src) = [] → points'.find lane = points.find lane) ∧
      (m.within distance lane (m.returnedNodes src) ≠ [] →
        ∃ e ∈ m.within distance lane (m.returnedNodes src),
          points'.find lane = some (m.segmentPoint e) ∧
            ∀ e' ∈ m.returnedNodes src, m.lanesegOf e' = lane → e.2 ≤ e'.2)

/-- The nodes of a lane segment within the limit are all equally near. -/
def EquallyNear (src : Point3d K) (distance : K) : Prop :=
  ∀ lane, ∀ e ∈ m.within distance lane (m.returnedNodes src),
    ∀ e' ∈ m.within distance lane (m.returnedNodes src), e.2 = e'.2

/-- What is known of the searches: they return unmarked nodes in the order of their distances, and
a node is where its record says. -/
structure Searches (src : Point3d K) : Prop where
  unmarked : ((m.returnedNodes src).map fun e => e.1.id).Nodup
  ordered : (m.returnedNodes src).Pairwise fun e e' => e.2 ≤ e'.2
  placed : ∀ e ∈ m.returnedNodes src,
    e.1.pos = ⟨(m.bdyPoint e.1.id).pt.x, (m.bdyPoint e.1.id).pt.y⟩

variable {m} {distance : K} {points points' : StdMap ℕ (SegmentPoint K)} {src : Point3d K}

/-! ## The rounds -/

/-- A round that goes on stores what `store` does. -/
theorem pointsRound_store (points : StdMap ℕ (SegmentPoint K)) (v : Node K) (d : WithTop K) :
    m.pointsRound distance v d points = some (.restore (-6, points)) ∨
      m.pointsRound distance v d points = some (.skip (m.store distance points (v, d))) ∨
      m.pointsRound distance v d points = some (.take (m.store distance points (v, d))) := by
  unfold pointsRound store
  by_cases hlen : m.lanesegs.length ≤ (m.bdyPoint v.id).lanesegIndex
  · exact .inl (if_pos hlen)
  · refine .inr ?_
    simp only [if_neg hlen]
    by_cases hfar : farther d distance
    · simp only [if_pos hfar, true_or]
    · simp only [if_neg hfar]
      exact .inr rfl

variable {selected : ℕ → Bool}

/-- The rounds end with an error or have stored what the searches returned. -/
theorem rounds_store {tree : Kdtree.Tree K} {q : Point K} {n : ℕ} {lanept : List ℕ}
    {r : (ℕ → Bool) × ((ℤ × StdMap ℕ (SegmentPoint K)) ⊕ _)}
    (h : rounds tree q (m.pointsRound distance) (fun points => (-5, points)) n selected lanept
      points = some r) :
    (∃ e, r.2 = .inl e ∧ e.1 < 0) ∨
      r.2 = .inr ((searches tree q n selected).foldl (m.store distance) points) := by
  induction n generalizing selected lanept points with
  | zero =>
      cases h
      exact .inr rfl
  | succ n ih =>
      unfold rounds at h
      cases hfound : kdtree2dSearch selected q tree with
      | none =>
          rw [hfound] at h
          cases h
      | some found =>
          obtain ⟨v, hv, -, -⟩ := kdtree2dSearch_eq_some hfound
          simp only [hfound, hv] at h
          simp only [searches, hfound, hv, foldl_cons]
          obtain hround | hround | hround := m.pointsRound_store points v found.dist <;>
            rw [hround] at h
          · cases h
            exact .inl ⟨_, rfl, Int.negSucc_lt_zero 5⟩
          · exact ih h
          · exact ih h

omit [Field K] in
/-- The codes of a call that is rejected. -/
theorem getNeareastPointsRejects_neg {ret : ℤ}
    (h : m.getNeareastPointsRejects src = some ret) : ret < 0 := by
  unfold getNeareastPointsRejects at h
  split_ifs at h
  · cases h
    decide
  · split at h
    · cases h
      decide
    · split_ifs at h <;> cases h <;> decide

/-- A call that returns 0 on clear flags has stored what the searches returned. -/
theorem getNeareastPoints_stores {s : Marks}
    (h : m.getNeareastPoints m.clear src points distance = some (s, 0, points')) :
    points' = (m.returnedNodes src).foldl (m.store distance) points := by
  unfold getNeareastPoints at h
  split at h
  · next ret hret =>
      cases h
      exact absurd (getNeareastPointsRejects_neg hret) (lt_irrefl 0)
  · obtain ⟨r, hrounds, heq⟩ := Option.map_eq_some_iff.mp h
    obtain ⟨e, hr, hneg⟩ | hr := rounds_store hrounds
    · rw [hr] at heq
      cases heq
      exact absurd hneg (lt_irrefl 0)
    · rw [hr] at heq
      cases heq
      rfl

/-! ## The points stored -/

/-- What is stored for a lane segment is that of the last of its nodes within the limit. -/
theorem find_foldl_store (l : List (Node K × WithTop K)) (lane : ℕ) :
    (l.foldl (m.store distance) points).find lane =
      ((m.within distance lane l).getLast?.map m.segmentPoint).or (points.find lane) := by
  induction l using reverseRecOn with
  | nil => simp [within]
  | append_singleton l e ih =>
      rw [foldl_append, foldl_cons, foldl_nil, store]
      by_cases hfar : farther e.2 distance
      · simpa [within, hfar] using ih
      · rw [if_neg hfar, StdMap.find_set, ih]
        by_cases hlane : m.lanesegOf e = lane
        · simp [within, hfar, hlane]
        · simp [within, hlane, Ne.symm hlane]

/-- While the searches return unmarked nodes, they return their distances. -/
theorem searches_dist {tree : Kdtree.Tree K} {q : Point K} {n : ℕ}
    (hnodup : ((searches tree q n selected).map fun e => e.1.id).Nodup)
    (hsel : ∀ e ∈ searches tree q n selected, selected e.1.id = false) :
    ∀ e ∈ searches tree q n selected, e.2 = ((distanceSq e.1.pos q : K) : WithTop K) := by
  induction n generalizing selected with
  | zero => nofun
  | succ n ih =>
      cases hfound : kdtree2dSearch selected q tree with
      | none => simp [searches, hfound]
      | some found =>
          obtain ⟨v, hv, hdist, hselected⟩ := kdtree2dSearch_eq_some hfound
          simp only [searches, hfound, hv, map_cons, nodup_cons, forall_mem_cons]
            at hnodup hsel ⊢
          refine ⟨?_, ih hnodup.2 fun e he => ?_⟩
          · rw [hdist, tmp, hsel.1]
            rfl
          · have hne : e.1.id ≠ v.id := by
              intro heq
              exact hnodup.1 (mem_map.mpr ⟨e, he, heq⟩)
            rw [hselected, Function.update_of_ne hne]
            exact hsel.2 e he

variable {e : Node K × WithTop K}

/-- Two nodes with the same point stored are equally far away. -/
theorem Searches.dist_eq (h : m.Searches src) {e' : Node K × WithTop K}
    (he : e ∈ m.returnedNodes src) (he' : e' ∈ m.returnedNodes src)
    (heq : m.segmentPoint e = m.segmentPoint e') : e.2 = e'.2 := by
  have hdist := searches_dist h.unmarked fun _ _ => rfl
  have hpt : (m.bdyPoint e.1.id).pt = (m.bdyPoint e'.1.id).pt := congrArg SegmentPoint.pt heq
  rw [hdist e he, hdist e' he', h.placed e he, h.placed e' he', hpt]

theorem mem_within {lane : ℕ} {l : List (Node K × WithTop K)} :
    e ∈ m.within distance lane l ↔ e ∈ l ∧ m.lanesegOf e = lane ∧ ¬ farther e.2 distance := by
  simp [within]

/-- A distance beyond the limit is larger than one within it. -/
theorem le_of_farther {d d' : WithTop K} (hfar : farther d distance)
    (hnear : ¬ farther d' distance) : d' ≤ d := by
  unfold farther at hfar hnear
  rw [not_or, not_lt, not_lt] at hnear
  rcases hfar with hneg | hfar
  · exact absurd hneg (not_lt.mpr hnear.1)
  · exact hnear.2.trans hfar.le

/-- **`get_neareast_points`** stores the nearest point of each lane segment exactly when the
points of a lane segment within the limit are all equally near. -/
theorem storesNearest_iff {s : Marks} (hsearches : m.Searches src)
    (hret : m.getNeareastPoints m.clear src points distance = some (s, 0, points')) :
    m.StoresNearest src distance points points' ↔ m.EquallyNear src distance := by
  obtain rfl := getNeareastPoints_stores hret
  unfold StoresNearest EquallyNear
  refine forall_congr' fun lane => ?_
  rw [find_foldl_store]
  cases hlast : (m.within distance lane (m.returnedNodes src)).getLast? with
  | none =>
      rw [getLast?_eq_none_iff] at hlast
      simp [hlast]
  | some w =>
      have hw := mem_of_getLast? hlast
      obtain ⟨hwmem, hwlane, hwnear⟩ := mem_within.mp hw
      have hle : ∀ e ∈ m.within distance lane (m.returnedNodes src), e.2 ≤ w.2 := by
        have hordered := hsearches.ordered.filter
          fun e => m.lanesegOf e = lane ∧ ¬ farther e.2 distance
        obtain ⟨init, hinit⟩ := getLast?_eq_some_iff.mp hlast
        intro e he
        rw [hinit] at he
        rcases mem_append.mp he with he | he
        · have hpair : (init ++ [w]).Pairwise fun e e' => e.2 ≤ e'.2 := hinit ▸ hordered
          exact (pairwise_append.mp hpair).2.2 e he w (mem_singleton_self w)
        · rw [mem_singleton.mp he]
      constructor
      · rintro ⟨-, hnear⟩
        obtain ⟨e₀, he₀, hfind, hmin⟩ := hnear (ne_nil_of_mem hw)
        rw [Option.map_some, Option.some_or, Option.some.injEq] at hfind
        have hw₀ : w.2 = e₀.2 := hsearches.dist_eq hwmem (mem_within.mp he₀).1 hfind
        have heq : ∀ e ∈ m.within distance lane (m.returnedNodes src), e.2 = w.2 := by
          intro e he
          obtain ⟨hmem, hlane, -⟩ := mem_within.mp he
          exact le_antisymm (hle e he) (hw₀.trans_le (hmin e hmem hlane))
        intro e he e' he'
        rw [heq e he, heq e' he']
      · intro heq
        refine ⟨fun hnil => absurd hnil (ne_nil_of_mem hw), fun _ => ⟨w, hw, rfl, ?_⟩⟩
        intro e he hlane
        by_cases hfar : farther e.2 distance
        · exact (le_of_farther hfar hwnear)
        · exact (heq w hw e (mem_within.mpr ⟨he, hlane, hfar⟩)).le

end HdmapImpl

/-- The boundary points at (0, 0) and (1, 0). -/
def nearNode : Node ℚ := ⟨0, ⟨0, 0⟩⟩

def farNode : Node ℚ := ⟨1, ⟨1, 0⟩⟩

/-- A map of two lane segments with two boundary points: the near one of lane segment 0, the far
one of lane segment `lane`. -/
def twoPoints (lane : ℕ) : HdmapImpl ℚ where
  header := some ⟨true, -10, 10, -10, 10⟩
  lanesegKdtree := .null
  lanesegIndex _ := 0
  lanebdyKdtree := .node (.node .null nearNode .x .null) farNode .x .null
  bdyPoint
    | 0 => ⟨⟨0, 0, 0⟩, 0, 0⟩
    | _ => ⟨⟨1, 0, 0⟩, lane, 1⟩
  lanesegs := [⟨none, none, none, none⟩, ⟨none, none, none, none⟩]
  lanes := []
  startLeft _ := 0

variable (lane : ℕ)

theorem kdtree2dSearch_first :
    kdtree2dSearch (fun _ => false) ⟨0, 0⟩ (twoPoints lane).lanebdyKdtree =
      some ⟨some nearNode, 0, Function.update (fun _ => false) 0 true⟩ := by
  have hfar : ¬ (1 : WithTop ℚ) < 0 := fun h => absurd (WithTop.coe_lt_coe.mp h) (by decide)
  simp [kdtree2dSearch, twoPoints, nearNode, farNode, descend, rewalk, Split.coord, tmp, crosses,
    Kdtree.Tree.isNull, distanceSq, hfar]

theorem kdtree2dSearch_second :
    kdtree2dSearch (Function.update (fun _ => false) 0 true) ⟨0, 0⟩
        (twoPoints lane).lanebdyKdtree =
      some ⟨some farNode, 1,
        Function.update (Function.update (fun _ => false) 0 true) 1 true⟩ := by
  simp [kdtree2dSearch, twoPoints, nearNode, farNode, descend, rewalk, Split.coord, tmp, crosses,
    farChild, Kdtree.Tree.isNull, improve, distanceSq]

/-- The nodes returned around the origin, the nearer one first. -/
theorem returnedNodes_twoPoints :
    (twoPoints lane).returnedNodes ⟨0, 0, 0⟩ = [(nearNode, 0), (farNode, 1)] := by
  have hlength : (twoPoints lane).lanesegs.length = 2 := rfl
  simp only [HdmapImpl.returnedNodes, hlength, searches, kdtree2dSearch_first,
    kdtree2dSearch_second]

theorem searches_twoPoints : (twoPoints lane).Searches ⟨0, 0, 0⟩ := by
  constructor <;> rw [returnedNodes_twoPoints]
  · decide
  · simp
  · simp [twoPoints, nearNode, farNode]

theorem not_farther {d : WithTop ℚ} (h : d ≤ 1) : ¬ HdmapImpl.farther d (1 : ℚ) := by
  unfold HdmapImpl.farther
  rw [not_or, mul_one]
  exact ⟨by decide, not_lt.mpr h⟩

/-- The call around the origin with a limit of 1. -/
theorem getNeareastPoints_twoPoints (hlane : lane < 2) :
    ∃ s, (twoPoints lane).getNeareastPoints (twoPoints lane).clear ⟨0, 0, 0⟩ .empty 1 =
      some (s, 0, (StdMap.empty.set 0 ⟨⟨0, 0, 0⟩, 0⟩).set lane ⟨⟨1, 0, 0⟩, 1⟩) := by
  have hrejects : (twoPoints lane).getNeareastPointsRejects ⟨0, 0, 0⟩ = none := by
    simp [HdmapImpl.getNeareastPointsRejects, twoPoints, Header.excludes, Kdtree.Tree.isNull]
  have hlength : (twoPoints lane).lanesegs.length = 2 := rfl
  have hnear : ∀ points, (twoPoints lane).pointsRound 1 nearNode 0 points =
      some (.take (points.set 0 ⟨⟨0, 0, 0⟩, 0⟩)) := by
    intro points
    have hnot := not_farther (zero_le_one (α := WithTop ℚ))
    simp [HdmapImpl.pointsRound, hnot, twoPoints, nearNode]
  have hfar : ∀ points, (twoPoints lane).pointsRound 1 farNode 1 points =
      some (.take (points.set lane ⟨⟨1, 0, 0⟩, 1⟩)) := by
    intro points
    have hnot := not_farther (le_refl (1 : WithTop ℚ))
    have hindex : ¬ 2 ≤ ((twoPoints lane).bdyPoint farNode.id).lanesegIndex := not_le.mpr hlane
    simp only [HdmapImpl.pointsRound, hlength, if_neg hindex, if_neg hnot]
    rfl
  simp [HdmapImpl.getNeareastPoints, hrejects, hlength, rounds, HdmapImpl.clear,
    kdtree2dSearch_first, kdtree2dSearch_second, hnear, hfar]

/-- Where the two points are of different lane segments, the call stores both. -/
theorem storesNearest_iff_twoLanesegs : ∃ s, (twoPoints 1).Searches ⟨0, 0, 0⟩ ∧
    (twoPoints 1).getNeareastPoints (twoPoints 1).clear ⟨0, 0, 0⟩ .empty 1 =
      some (s, 0, (StdMap.empty.set 0 ⟨⟨0, 0, 0⟩, 0⟩).set 1 ⟨⟨1, 0, 0⟩, 1⟩) ∧
    ((twoPoints 1).StoresNearest ⟨0, 0, 0⟩ 1 .empty
        ((StdMap.empty.set 0 ⟨⟨0, 0, 0⟩, 0⟩).set 1 ⟨⟨1, 0, 0⟩, 1⟩) ↔
      (twoPoints 1).EquallyNear ⟨0, 0, 0⟩ 1) := by
  obtain ⟨s, hs⟩ := getNeareastPoints_twoPoints 1 (by decide)
  exact ⟨s, searches_twoPoints 1, hs, HdmapImpl.storesNearest_iff (searches_twoPoints 1) hs⟩

/-- Where both are of one lane segment, the call stores the far one for it. -/
theorem not_storesNearest_oneLaneseg : ∃ s points', (twoPoints 0).Searches ⟨0, 0, 0⟩ ∧
    (twoPoints 0).getNeareastPoints (twoPoints 0).clear ⟨0, 0, 0⟩ .empty 1 =
      some (s, 0, points') ∧
    ¬ (twoPoints 0).StoresNearest ⟨0, 0, 0⟩ 1 .empty points' := by
  obtain ⟨s, hs⟩ := getNeareastPoints_twoPoints 0 (by decide)
  refine ⟨s, _, searches_twoPoints 0, hs, fun hnear => ?_⟩
  have hwithin : (nearNode, (0 : WithTop ℚ)) ∈
      (twoPoints 0).within 1 0 ((twoPoints 0).returnedNodes ⟨0, 0, 0⟩) := by
    rw [HdmapImpl.mem_within, returnedNodes_twoPoints]
    exact ⟨mem_cons_self, rfl, not_farther zero_le_one⟩
  obtain ⟨e, he, hfind, hmin⟩ := (hnear 0).2 (ne_nil_of_mem hwithin)
  rw [StdMap.find_set, if_pos rfl, Option.some.injEq] at hfind
  have hle := hmin (nearNode, 0) (HdmapImpl.mem_within.mp hwithin).1 rfl
  have hmem := (HdmapImpl.mem_within.mp he).1
  rw [returnedNodes_twoPoints, mem_pair] at hmem
  rcases hmem with rfl | rfl
  · exact absurd hfind (by decide)
  · exact absurd (WithTop.coe_le_coe.mp hle) (by decide)

end V2I.HdmapQuery
