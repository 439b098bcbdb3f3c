import V2I.Lib.ConvexPolygon
import V2I.Lib.Lists
import V2I.MapCore.Polygons

/-!
# V2I.MapCore.Polygons.Intersected

`is_polygons_intersected` decides whether two convex polygons have a point in common, with `EPS`
read as 0. It looks for edges that meet, and where there are none for a vertex of one polygon in
the other, by the parity of the edges that a ray meets.
-/

namespace V2I.Polygons

open Plane Cyclic ConvexPolygon List

variable {K : Type*} [Field K] [LinearOrder K]

/-- The closed region of a convex polygon. -/
def region (poly : List (Point K)) : Set (K × K) := hull (poly.map toProd)

/-- A convex polygon that is not degenerate, in either orientation and from any start vertex. -/
def Convex (poly : List (Point K)) : Prop := IsConvex (poly.map toProd)

/-- The point is on an edge. -/
def OnEdge (poly : List (Point K)) (q : K × K) : Prop :=
  ∃ e ∈ pairs poly, q ∈ segment K (toProd e.1) (toProd e.2)

/-- Is the vertex above the point? -/
def above (pt v : Point K) : Bool := pt.y < v.y

/-- Where the line of an edge is at the height of the point. -/
def crossingAt (pt : Point K) (e : Point K × Point K) : K :=
  (e.1.x - e.2.x) * (pt.y - e.2.y) / (e.1.y - e.2.y) + e.2.x

variable {pt : Point K} {poly : List (Point K)} {e : Point K × Point K}

/-! ## The ray -/

omit [Field K] in
theorem above_ne_iff : above pt e.1 ≠ above pt e.2 ↔
    (e.2.y ≤ pt.y ∧ pt.y < e.1.y) ∨ (e.1.y ≤ pt.y ∧ pt.y < e.2.y) := by
  simp only [above, ne_eq, decide_eq_decide, ← not_lt]
  tauto

theorem rayMeets_iff : rayMeets pt e = true ↔
    above pt e.1 ≠ above pt e.2 ∧ pt.x < crossingAt pt e := by
  rw [above_ne_iff, rayMeets, decide_eq_true_iff]
  rfl

theorem sub_ne_zero_of_above_ne (h : above pt e.1 ≠ above pt e.2) : e.1.y - e.2.y ≠ 0 := by
  intro hzero
  rw [above, above, sub_eq_zero.mp hzero] at h
  exact h rfl

theorem isPointInPolygon_iff :
    isPointInPolygon poly pt = true ↔ Odd ((pairs poly).countP (rayMeets pt)) := by
  rw [isPointInPolygon, foldl_flip]
  simp

variable [IsStrictOrderedRing K]

/-- An edge that divides the heights meets the line at the height of the point. -/
theorem crossingAt_mem (h : above pt e.1 ≠ above pt e.2) :
    (crossingAt pt e, pt.y) ∈ segment K (toProd e.1) (toProd e.2) := by
  have hne := sub_ne_zero_of_above_ne h
  have ht : 0 ≤ (pt.y - e.2.y) / (e.1.y - e.2.y) ∧ (pt.y - e.2.y) / (e.1.y - e.2.y) ≤ 1 := by
    rcases above_ne_iff.mp h with ⟨h₂, h₁⟩ | ⟨h₁, h₂⟩
    · have hpos : 0 < e.1.y - e.2.y := by linarith
      exact ⟨div_nonneg (by linarith) hpos.le, (div_le_one hpos).mpr (by linarith)⟩
    · have hneg : e.1.y - e.2.y < 0 := by linarith
      exact ⟨div_nonneg_of_nonpos (by linarith) hneg.le,
        (div_le_one_of_neg hneg).mpr (by linarith)⟩
  rw [segment_symm]
  refine mem_segment_of ht.1 ht.2 ?_ ?_
  · simp only [crossingAt, toProd]
    ring
  · simp only [toProd]
    field_simp
    ring

omit [IsStrictOrderedRing K] in
/-- On which side of the point an edge passes. -/
theorem orient_eq_crossingAt (h : above pt e.1 ≠ above pt e.2) :
    orient (toProd e.1) (toProd e.2) (toProd pt) =
      (e.2.y - e.1.y) * (crossingAt pt e - pt.x) := by
  have hne := sub_ne_zero_of_above_ne h
  simp only [orient, Plane.cross, crossingAt, toProd, Prod.fst_sub, Prod.snd_sub]
  field_simp
  ring

omit [IsStrictOrderedRing K] in
/-- The direction of an edge does not matter. -/
theorem rayMeets_swap : rayMeets pt e.swap = rayMeets pt e := by
  rw [Bool.eq_iff_iff, rayMeets_iff, rayMeets_iff, Prod.fst_swap, Prod.snd_swap, ne_comm]
  refine and_congr_right fun h => ?_
  have hne := sub_ne_zero_of_above_ne h
  have hne' : e.2.y - e.1.y ≠ 0 := by
    rw [← neg_sub]
    exact neg_ne_zero.mpr hne
  have hswap : crossingAt pt e.swap = crossingAt pt e := by
    simp only [crossingAt, Prod.fst_swap, Prod.snd_swap]
    field_simp
    ring
  rw [hswap]

/-! ## Points in polygons -/

omit [IsStrictOrderedRing K] in
theorem edge_subset_region (he : e ∈ pairs poly) :
    segment K (toProd e.1) (toProd e.2) ⊆ region poly := by
  have hmem : Prod.map toProd toProd e ∈ pairs (poly.map toProd) := by
    rw [pairs_map]
    exact mem_map_of_mem he
  exact edge_subset_hull hmem

/-- **A point with an odd number of edges to its right** is in the convex hull. -/
theorem mem_region_of_isPointInPolygon (h : isPointInPolygon poly pt = true) :
    toProd pt ∈ region poly := by
  rw [isPointInPolygon_iff] at h
  obtain ⟨e, he, hmeets⟩ := countP_pos_iff.mp h.pos
  obtain ⟨hdivides, hright⟩ := rayMeets_iff.mp hmeets
  -- an even number of edges divide the heights, so one of them passes to the left
  obtain ⟨e', he', hdivides', hleft⟩ : ∃ e' ∈ pairs poly, above pt e'.1 ≠ above pt e'.2 ∧
      crossingAt pt e' ≤ pt.x := by
    by_contra hnone
    push Not at hnone
    have heven := even_countP_ne (above pt) poly
    have hcount : (pairs poly).countP (rayMeets pt) =
        (pairs poly).countP fun e => above pt e.1 != above pt e.2 := by
      refine countP_congr fun e he => ?_
      rw [rayMeets_iff, bne_iff_ne]
      exact and_iff_left_of_imp (hnone e he)
    rw [← hcount] at heven
    exact Nat.not_even_iff_odd.mpr h heven
  refine segment_subset_hull (edge_subset_region he' (crossingAt_mem hdivides'))
    (edge_subset_region he (crossingAt_mem hdivides)) (mem_segment_iff.mpr ⟨?_, ?_⟩)
  · simp [orient, Plane.cross, toProd]
  · simpa [Plane.dot, toProd] using
      mul_nonpos_of_nonpos_of_nonneg (sub_nonpos.mpr hleft) (sub_nonneg.mpr hright.le)

/-- Inside a polygon that turns left the ray meets the edges that go up. -/
theorem rayMeets_eq_of_left (hleft : 0 ≤ orient (toProd e.1) (toProd e.2) (toProd pt))
    (hoff : toProd pt ∉ segment K (toProd e.1) (toProd e.2)) :
    rayMeets pt e = (!above pt e.1 && above pt e.2) := by
  rw [Bool.eq_iff_iff, rayMeets_iff, Bool.and_eq_true, Bool.not_eq_true']
  constructor
  · rintro ⟨hdivides, hright⟩
    rw [orient_eq_crossingAt hdivides] at hleft
    have hup : 0 ≤ e.2.y - e.1.y := nonneg_of_mul_nonneg_left hleft (sub_pos.mpr hright)
    rcases above_ne_iff.mp hdivides with ⟨h₂, h₁⟩ | ⟨h₁, h₂⟩
    · linarith
    · exact ⟨decide_eq_false (not_lt.mpr h₁), decide_eq_true h₂⟩
  · rintro ⟨h₁, h₂⟩
    have hdivides : above pt e.1 ≠ above pt e.2 := by simp [h₁, h₂]
    refine ⟨hdivides, ?_⟩
    have hup : 0 < e.2.y - e.1.y := by
      have h₁ := not_lt.mp (of_decide_eq_false h₁)
      have h₂ := of_decide_eq_true h₂
      linarith
    rw [orient_eq_crossingAt hdivides] at hleft
    refine lt_of_le_of_ne (sub_nonneg.mp (nonneg_of_mul_nonneg_right hleft hup)) fun heq => ?_
    -- the point would be on the edge
    have hmem := crossingAt_mem hdivides
    rw [← heq] at hmem
    exact hoff hmem

/-- A polygon does not lie above a point of its region. -/
theorem exists_not_above (hmem : toProd pt ∈ region poly) : ∃ v ∈ poly, above pt v = false := by
  by_contra hnone
  push Not at hnone
  have hhigh : ∀ v ∈ poly.map toProd, 0 ≤ Plane.cross (1, 0) (v - toProd pt) := by
    intro w hw
    obtain ⟨v, hv, rfl⟩ := mem_map.mp hw
    have := of_decide_eq_true ((Bool.not_eq_false _).mp (hnone v hv))
    simpa [Plane.cross, toProd] using this.le
  obtain ⟨w, hw, hlevel, -⟩ := exists_mem_le (affine_cross (1, 0) (toProd pt))
    (affine_cross (1, 0) (toProd pt)) hhigh hmem (by simp [Plane.cross]) (by simp [Plane.cross])
  obtain ⟨v, hv, rfl⟩ := mem_map.mp hw
  refine hnone v hv (decide_eq_false (not_lt.mpr (le_of_eq ?_)))
  simpa [Plane.cross, toProd, sub_eq_zero] using hlevel

/-- A polygon that turns left reaches above a point of its region that is on no edge. -/
theorem exists_above (hin : ∀ e ∈ pairs (poly.map toProd), 0 ≤ orient e.1 e.2 (toProd pt))
    (hmem : toProd pt ∈ region poly) (hoff : ¬ OnEdge poly (toProd pt)) :
    ∃ v ∈ poly, above pt v = true := by
  by_contra hnone
  push Not at hnone
  have hlow : ∀ v ∈ poly.map toProd, 0 ≤ Plane.cross (-1, 0) (v - toProd pt) := by
    intro w hw
    obtain ⟨v, hv, rfl⟩ := mem_map.mp hw
    have := not_lt.mp (of_decide_eq_false ((Bool.not_eq_true _).mp (hnone v hv)))
    simpa [Plane.cross, toProd] using this
  obtain ⟨e, he, hon⟩ := exists_edge_of_touch (u := (-1, 0)) (by simp) hlow hmem hin
  rw [pairs_map, List.mem_map] at he
  obtain ⟨e, he, rfl⟩ := he
  exact hoff ⟨e, he, hon⟩

theorem isPointInPolygon_of_turnsLeft (hleft : TurnsLeft (poly.map toProd))
    (hspans : Spans (poly.map toProd)) (hmem : toProd pt ∈ region poly)
    (hoff : ¬ OnEdge poly (toProd pt)) : isPointInPolygon poly pt = true := by
  have hin : ∀ e ∈ pairs (poly.map toProd), 0 ≤ orient e.1 e.2 (toProd pt) :=
    fun e he => hleft.left_of_mem hmem he
  have hcount : (pairs poly).countP (rayMeets pt) =
      (pairs poly).countP fun e => !above pt e.1 && above pt e.2 := by
    refine countP_congr fun e he => ?_
    have he' : Prod.map toProd toProd e ∈ pairs (poly.map toProd) := by
      rw [pairs_map]
      exact mem_map_of_mem he
    rw [rayMeets_eq_of_left (hin _ he') fun h => hoff ⟨e, he, h⟩]
  have halt : ¬ Alternates (above pt) poly := by
    rintro ⟨i, j, k, m, hij, hjk, hkm, hm, h⟩
    refine hleft.not_alternates hspans pt.y ⟨i, j, k, m, hij, hjk, hkm, by simpa using hm, ?_⟩
    simpa [above, toProd] using h
  obtain ⟨v, hv, hlow⟩ := exists_not_above hmem
  obtain ⟨w, hw, hhigh⟩ := exists_above hin hmem hoff
  rw [isPointInPolygon_iff, hcount, countP_gain_eq_one halt hv hlow hw hhigh]
  exact odd_one

/-! ## Other vertex lists -/

section Lists

omit [IsStrictOrderedRing K]

omit [Field K] [LinearOrder K] in
theorem mem_reverse {v : Point K} : v ∈ reverse poly ↔ v ∈ poly := by
  cases poly <;> simp [reverse]

theorem region_congr {poly' : List (Point K)} (h : ∀ v, v ∈ poly' ↔ v ∈ poly) :
    region poly' = region poly := by
  refine hull_congr fun w => ?_
  simp only [List.mem_map, h]

theorem isPointInPolygon_reverse :
    isPointInPolygon (reverse poly) pt = isPointInPolygon poly pt := by
  cases poly with
  | nil => rfl
  | cons p ps =>
      rw [Bool.eq_iff_iff, isPointInPolygon_iff, isPointInPolygon_iff, reverse, pairs_reverse,
        countP_map, countP_reverse]
      have hswap : rayMeets pt ∘ Prod.swap = rayMeets pt := funext fun _ => rayMeets_swap
      rw [hswap]

theorem onEdge_reverse {q : K × K} : OnEdge (reverse poly) q ↔ OnEdge poly q := by
  cases poly with
  | nil => exact Iff.rfl
  | cons p ps =>
      unfold OnEdge
      rw [reverse, pairs_reverse]
      simp only [List.mem_map, List.mem_reverse, exists_exists_and_eq_and, Prod.fst_swap,
        Prod.snd_swap, segment_symm K (toProd (Prod.snd _))]

end Lists

theorem Convex.reverse (h : Convex poly) : Convex (reverse poly) := by
  cases poly with
  | nil => exact h
  | cons p ps =>
      unfold Convex Polygons.reverse at *
      rw [map_cons] at h ⊢
      rw [map_reverse]
      exact IsConvex.reverse h

omit [IsStrictOrderedRing K] in
theorem Convex.rotate (h : Convex poly) (n : ℕ) : Convex (poly.rotate n) := by
  unfold Convex at *
  rw [map_rotate]
  exact IsConvex.rotate h n

/-- **A point in a convex polygon**, and on no edge, has an odd number of edges to its right. -/
theorem isPointInPolygon_of_mem (h : Convex poly) (hmem : toProd pt ∈ region poly)
    (hoff : ¬ OnEdge poly (toProd pt)) : isPointInPolygon poly pt = true := by
  rcases h.turns with hleft | hright
  · exact isPointInPolygon_of_turnsLeft hleft h.spans hmem hoff
  · rw [← isPointInPolygon_reverse]
    refine isPointInPolygon_of_turnsLeft ?_ h.reverse.spans ?_ ?_
    · cases poly with
      | nil => exact .nil
      | cons p ps =>
          rw [Polygons.reverse, map_cons, map_reverse]
          exact turnsLeft_reverse.mpr hright
    · rwa [region_congr fun _ => mem_reverse]
    · rwa [onEdge_reverse]

/-- A segment that leaves a convex polygon meets an edge. -/
theorem Convex.exists_exit (h : Convex poly) {y z : K × K} (hz : z ∈ region poly)
    (hy : y ∉ region poly) : ∃ x ∈ segment K z y, OnEdge poly x := by
  obtain ⟨x, hx, e, he, hxe⟩ := IsConvex.exists_exit h hz hy
  rw [pairs_map, List.mem_map] at he
  obtain ⟨e, he, rfl⟩ := he
  exact ⟨x, hx, e, he, hxe⟩

/-! ## Two polygons -/

variable {poly1 poly2 : List (Point K)}

theorem isPolygonsIntersected_eq_true_iff (h1 : Convex poly1) (h2 : Convex poly2) :
    isPolygonsIntersected 0 poly1 poly2 = true ↔
      (∃ e ∈ pairs poly1, ∃ f ∈ pairs poly2, ∃ q, Common e.1 e.2 f.1 f.2 q) ∨
      (∃ v ∈ poly1, isPointInPolygon poly2 v = true) ∨
      ∃ v ∈ poly2, isPointInPolygon poly1 v = true := by
  have hlen1 : ¬ poly1.length < 3 := by simpa using h1.spans.three_le_length
  have hlen2 : ¬ poly2.length < 3 := by simpa using h2.spans.three_le_length
  rw [isPolygonsIntersected, if_neg (not_or.mpr ⟨hlen1, hlen2⟩)]
  simp only [Bool.or_eq_true, any_eq_true, decide_eq_true_iff, or_assoc,
    fun e f : Point K × Point K => (getCrossPoint_spec ⟨0, 0⟩ e.1 e.2 f.1 f.2).1]

/-- Where a vertex starts an edge. -/
theorem onEdge_of_mem {v : Point K} (hv : v ∈ poly) : OnEdge poly (toProd v) := by
  obtain ⟨e, he, rfl⟩ := exists_pair hv
  exact ⟨e, he, left_mem_segment K _ _⟩

/-- What the test finds is a common point. -/
theorem exists_common_of_intersected (h1 : Convex poly1) (h2 : Convex poly2)
    (h : isPolygonsIntersected 0 poly1 poly2 = true) :
    ∃ q, q ∈ region poly1 ∧ q ∈ region poly2 := by
  rcases (isPolygonsIntersected_eq_true_iff h1 h2).mp h with
    ⟨e, he, f, hf, q, hq₁, hq₂⟩ | ⟨v, hv, hin⟩ | ⟨v, hv, hin⟩
  · exact ⟨q, edge_subset_region he hq₁, edge_subset_region hf hq₂⟩
  · exact ⟨toProd v, subset_hull (mem_map_of_mem hv), mem_region_of_isPointInPolygon hin⟩
  · exact ⟨toProd v, mem_region_of_isPointInPolygon hin, subset_hull (mem_map_of_mem hv)⟩

/-- **Where two convex polygons have a common point** and no edges that meet, a vertex of one is
in the other. -/
theorem intersected_of_common (h1 : Convex poly1) (h2 : Convex poly2) {q : K × K}
    (hq1 : q ∈ region poly1) (hq2 : q ∈ region poly2) :
    isPolygonsIntersected 0 poly1 poly2 = true := by
  rw [isPolygonsIntersected_eq_true_iff h1 h2]
  by_cases hedges : ∃ x, OnEdge poly1 x ∧ OnEdge poly2 x
  · obtain ⟨x, ⟨e, he, hxe⟩, f, hf, hxf⟩ := hedges
    exact .inl ⟨e, he, f, hf, x, hxe, hxf⟩
  have hapart : ∀ x, OnEdge poly1 x → ¬ OnEdge poly2 x := fun x h h' => hedges ⟨x, h, h'⟩
  right
  have hne : poly1 ≠ [] := by
    rintro rfl
    obtain ⟨a, ha, -⟩ := h1.spans
    cases ha
  obtain ⟨v, hv⟩ := exists_mem_of_ne_nil poly1 hne
  by_cases hvin : toProd v ∈ region poly2
  · exact .inl ⟨v, hv, isPointInPolygon_of_mem h2 hvin (hapart _ (onEdge_of_mem hv))⟩
  -- the way from the common point to the vertex leaves the second polygon on an edge
  obtain ⟨x, hx, f, hf, hxf⟩ := h2.exists_exit hq2 hvin
  have hxin : x ∈ region poly1 :=
    segment_subset_hull hq1 (subset_hull (mem_map_of_mem hv)) hx
  have hf₁ := (mem_of_mem_pairs hf).1
  by_cases hfin : toProd f.1 ∈ region poly1
  · exact .inr ⟨f.1, hf₁, isPointInPolygon_of_mem h1 hfin
      fun hon => hapart _ hon (onEdge_of_mem hf₁)⟩
  · -- and the way along this edge would leave the first polygon on an edge
    obtain ⟨y, hy, hyon⟩ := h1.exists_exit hxin hfin
    have hyf : y ∈ segment K (toProd f.1) (toProd f.2) :=
      (convex_segment _ _).segment_subset hxf (left_mem_segment K _ _) hy
    exact absurd ⟨f, hf, hyf⟩ (hapart y hyon)

theorem isPolygonsIntersected_iff (h1 : Convex poly1) (h2 : Convex poly2) :
    isPolygonsIntersected 0 poly1 poly2 = true ↔ ∃ q, q ∈ region poly1 ∧ q ∈ region poly2 :=
  ⟨exists_common_of_intersected h1 h2, fun ⟨_, hq1, hq2⟩ => intersected_of_common h1 h2 hq1 hq2⟩

/-- The test depends on the regions alone. -/
theorem isPolygonsIntersected_congr {poly1' poly2' : List (Point K)} (h1 : Convex poly1)
    (h2 : Convex poly2) (h1' : Convex poly1') (h2' : Convex poly2')
    (hr1 : region poly1' = region poly1) (hr2 : region poly2' = region poly2) :
    isPolygonsIntersected 0 poly1' poly2' = isPolygonsIntersected 0 poly1 poly2 := by
  rw [Bool.eq_iff_iff, isPolygonsIntersected_iff h1' h2', isPolygonsIntersected_iff h1 h2, hr1, hr2]

theorem isPolygonsIntersected_comm (h1 : Convex poly1) (h2 : Convex poly2) :
    isPolygonsIntersected 0 poly2 poly1 = isPolygonsIntersected 0 poly1 poly2 := by
  rw [Bool.eq_iff_iff, isPolygonsIntersected_iff h2 h1, isPolygonsIntersected_iff h1 h2]
  simp only [and_comm]

/-- The test says whether two polygons have a common point, however they are given. -/
structure TestRight (poly1 poly2 : List (Point K)) : Prop where
  iff : isPolygonsIntersected 0 poly1 poly2 = true ↔ ∃ q, q ∈ region poly1 ∧ q ∈ region poly2
  symm : isPolygonsIntersected 0 poly2 poly1 = isPolygonsIntersected 0 poly1 poly2
  rotate : ∀ m n, isPolygonsIntersected 0 (poly1.rotate m) (poly2.rotate n) =
    isPolygonsIntersected 0 poly1 poly2
  reverse_left : isPolygonsIntersected 0 (reverse poly1) poly2 =
    isPolygonsIntersected 0 poly1 poly2
  reverse_right : isPolygonsIntersected 0 poly1 (reverse poly2) =
    isPolygonsIntersected 0 poly1 poly2

/-- **`get_cross_point` and `is_polygons_intersected`** with `EPS` 0: two segments have a common
point exactly when one is found, and two convex polygons exactly when the test says so. -/
theorem polygons_spec {K : Type*} [Field K] [LinearOrder K] [IsStrictOrderedRing K] :
    (∀ p a b c d : Point K, (0 ≤ (getCrossPoint 0 p a b c d).1 ↔ ∃ q, Common a b c d q) ∧
      (0 ≤ (getCrossPoint 0 p a b c d).1 →
        Common a b c d (toProd (getCrossPoint 0 p a b c d).2))) ∧
    ∀ poly1 poly2 : List (Point K), Convex poly1 → Convex poly2 → TestRight poly1 poly2 := by
  refine ⟨getCrossPoint_spec, fun poly1 poly2 h1 h2 => ?_⟩
  have hrotate : ∀ (poly : List (Point K)) n, region (poly.rotate n) = region poly :=
    fun poly n => region_congr fun _ => mem_rotate
  have hreverse : ∀ poly : List (Point K), region (reverse poly) = region poly :=
    fun poly => region_congr fun _ => mem_reverse
  exact {
    iff := isPolygonsIntersected_iff h1 h2
    symm := isPolygonsIntersected_comm h1 h2
    rotate := fun m n => isPolygonsIntersected_congr h1 h2 (h1.rotate m) (h2.rotate n)
      (hrotate poly1 m) (hrotate poly2 n)
    reverse_left := isPolygonsIntersected_congr h1 h2 h1.reverse h2 (hreverse poly1) rfl
    reverse_right := isPolygonsIntersected_congr h1 h2 h1 h2.reverse rfl (hreverse poly2) }

/-- A triangle that turns left. -/
def outer : List (Point ℚ) := [⟨0, 0⟩, ⟨4, 0⟩, ⟨0, 4⟩]

/-- A triangle inside `outer` that turns right. -/
def inner : List (Point ℚ) := [⟨1, 1⟩, ⟨1, 2⟩, ⟨2, 1⟩]

theorem convex_outer : Convex outer where
  turns := .inl (by simp [outer, TurnsLeft, toProd, orient, Plane.cross])
  spans := ⟨(0, 0), by simp [outer, toProd], (4, 0), by simp [outer, toProd],
    (0, 4), by simp [outer, toProd], by simp [orient, Plane.cross]⟩

theorem convex_inner : Convex inner where
  turns := .inr (by simp [inner, TurnsRight, toProd, orient, Plane.cross])
  spans := ⟨(1, 1), by simp [inner, toProd], (1, 2), by simp [inner, toProd],
    (2, 1), by simp [inner, toProd], by norm_num [orient, Plane.cross]⟩

theorem polygons_spec_triangles :
    TestRight outer inner ∧ ∃ q, q ∈ region outer ∧ q ∈ region inner :=
  have htest := polygons_spec.2 outer inner convex_outer convex_inner
  ⟨htest, htest.iff.mp (by decide +kernel)⟩

end V2I.Polygons
