import Mathlib.Data.List.Induction
import Mathlib.Tactic.Linarith
import Mathlib.Tactic.Ring
import V2I.MapCore.Hdmap

/-!
# V2I.MapCore.Hdmap.CentralLines

How far a point is from the centre lines of the lanes: from one of them
(`get_distance_pt_curve_enu`), from all of them (`get_distance_pt_closest_central_line_enu`),
and which of them are near (`get_lanes_near_pt_enu`, in `V2I.MapCore.Hdmap`).

A call hands back a squared distance with the point in which it is taken, or a negative number.
-/

namespace V2I.Hdmap

open List

namespace HdmapImpl

variable (m : HdmapImpl)

/-- The loop over the pieces of a lane, with the counter of all pieces. -/
def nearerLane (src : Point ℚ) (acc : Nearest) (ls : Laneseg) : Nearest :=
  match ls.centerPts with
  | none => acc
  | some pts => if ls.lane then (pts.zip pts.tail).foldl (nearerPiece src) acc else acc

/-- `get_distance_pt_closest_central_line_enu(pt_enu, cross_pt_map_enu)` -/
def getDistancePtClosestCentralLineEnu (ptEnu : Point ℚ) (crossPtMapEnu : Point ℚ) :
    Except ℤ (ℚ × Point ℚ) :=
  if !m.lanebdyKdtree then .error (-1)
  else
    match m.header with
    | none => .error (-2)
    | some hdr =>
        if !hdr.persistence then .error (-3)
        else if m.lanesegs.length = 0 then .error (-4)
        else if ptEnu.x < hdr.xmin ∨ ptEnu.x > hdr.xmax ∨ ptEnu.y < hdr.ymin ∨
            ptEnu.y > hdr.ymax then .error (-5)
        else
          let acc := m.lanesegs.foldl (nearerLane ptEnu) ⟨0, 0, crossPtMapEnu⟩
          .ok (acc.distance, acc.crossPt)

end HdmapImpl

/-! ## A segment -/

/-- The squared distance of two points. -/
def distSq (p q : Point ℚ) : ℚ := pointDistanceSq (p.x - q.x) (p.y - q.y)

/-- The points of a closed segment. -/
def OnSegment (e : Point ℚ × Point ℚ) (q : Point ℚ) : Prop :=
  ∃ t, 0 ≤ t ∧ t ≤ 1 ∧ q = ⟨e.1.x + (e.2.x - e.1.x) * t, e.1.y + (e.2.y - e.1.y) * t⟩

/-- A squared distance is the least to the points of a set, and is taken in one of them. -/
structure Closest (src : Point ℚ) (points : Point ℚ → Prop) (r : ℚ × Point ℚ) : Prop where
  mem : points r.2
  dist : r.1 = distSq src r.2
  least : ∀ q, points q → r.1 ≤ distSq src q

/-- The squared distance to a point of the segment, by its parameter. -/
theorem distSq_segment (p1 p2 p : Point ℚ) (t : ℚ) :
    distSq p ⟨p1.x + (p2.x - p1.x) * t, p1.y + (p2.y - p1.y) * t⟩ = distSq p p1 -
      2 * t * ((p2.x - p1.x) * (p.x - p1.x) + (p2.y - p1.y) * (p.y - p1.y)) +
      t ^ 2 * ((p2.x - p1.x) * (p2.x - p1.x) + (p2.y - p1.y) * (p2.y - p1.y)) := by
  simp only [distSq, pointDistanceSq]
  ring

/-- **The projection** on a segment is its closest point, also where the ends coincide. -/
theorem projection_closest (e : Point ℚ × Point ℚ) (p : Point ℚ) :
    Closest p (OnSegment e) (lineProjection e.1 e.2 p).swap := by
  obtain ⟨p1, p2⟩ := e
  have hseg := distSq_segment p1 p2 p
  have hd2 : 0 ≤ (p2.x - p1.x) * (p2.x - p1.x) + (p2.y - p1.y) * (p2.y - p1.y) :=
    add_nonneg (mul_self_nonneg _) (mul_self_nonneg _)
  simp only [lineProjection]
  generalize hcross : (p2.x - p1.x) * (p.x - p1.x) + (p2.y - p1.y) * (p.y - p1.y) = cross at hseg ⊢
  generalize hd : (p2.x - p1.x) * (p2.x - p1.x) + (p2.y - p1.y) * (p2.y - p1.y) = d2 at hseg hd2 ⊢
  split_ifs with hbefore hafter
  · refine ⟨⟨0, le_rfl, zero_le_one, by simp⟩, rfl, ?_⟩
    rintro _ ⟨t, ht, -, rfl⟩
    rw [hseg]
    have h₁ : t * cross ≤ 0 := mul_nonpos_of_nonneg_of_nonpos ht hbefore
    have h₂ : 0 ≤ t ^ 2 * d2 := mul_nonneg (sq_nonneg t) hd2
    change distSq p p1 ≤ _
    linarith
  · refine ⟨⟨1, zero_le_one, le_rfl, by simp⟩, rfl, ?_⟩
    rintro _ ⟨t, ht, ht', rfl⟩
    have hend := hseg 1
    simp only [mul_one, add_sub_cancel] at hend
    change distSq p p2 ≤ _
    rw [hseg, show distSq p p2 = _ from hend]
    have h : 0 ≤ (1 - t) * (2 * cross - (1 + t) * d2) := by
      refine mul_nonneg (by linarith) ?_
      have : (1 + t) * d2 ≤ 2 * d2 := mul_le_mul_of_nonneg_right (by linarith) hd2
      linarith
    linarith
  · have hpos : 0 < d2 := lt_trans (not_le.mp hbefore) (not_le.mp hafter)
    have hr : cross / d2 * d2 = cross := div_mul_cancel₀ cross hpos.ne'
    refine ⟨⟨cross / d2, div_nonneg (not_le.mp hbefore).le hd2,
      (div_le_one hpos).mpr (not_le.mp hafter).le, rfl⟩, ?_, ?_⟩
    · simp only [Prod.swap_prod_mk, distSq, pointDistanceSq]
      ring
    · rintro _ ⟨t, -, -, rfl⟩
      have hswap : pointDistanceSq (p1.x + (p2.x - p1.x) * (cross / d2) - p.x)
          (p1.y + (p2.y - p1.y) * (cross / d2) - p.y) = distSq p
            ⟨p1.x + (p2.x - p1.x) * (cross / d2), p1.y + (p2.y - p1.y) * (cross / d2)⟩ := by
        simp only [distSq, pointDistanceSq]
        ring
      simp only [Prod.swap_prod_mk, hswap, hseg]
      have h : 0 ≤ d2 * (t - cross / d2) ^ 2 := mul_nonneg hd2 (sq_nonneg _)
      generalize cross / d2 = r at hr h
      rw [← hr]
      linarith

/-! ## The loops -/

/-- The points of some pieces. -/
def OnPieces (es : List (Point ℚ × Point ℚ)) (q : Point ℚ) : Prop := ∃ e ∈ es, OnSegment e q

variable {es : List (Point ℚ × Point ℚ)} {src : Point ℚ}

theorem Closest.of_pieces {e : Point ℚ × Point ℚ} (he : e ∈ es)
    (hle : ∀ e' ∈ es, (lineProjection e.1 e.2 src).2 ≤ (lineProjection e'.1 e'.2 src).2) :
    Closest src (OnPieces es) (lineProjection e.1 e.2 src).swap := by
  have hclosest := projection_closest e src
  refine ⟨⟨e, he, hclosest.mem⟩, hclosest.dist, ?_⟩
  rintro q ⟨e', he', hq⟩
  exact (hle e' he').trans ((projection_closest e' src).least q hq)

/-- **The round** over any pieces, after the first of them: a piece that is the nearest is
kept. -/
theorem foldl_nearerPiece (hes : es ≠ []) (d : ℚ) (c : Point ℚ) :
    (es.foldl (nearerPiece src) ⟨0, d, c⟩).index ≠ 0 ∧
      ∃ e ∈ es, ((es.foldl (nearerPiece src) ⟨0, d, c⟩).crossPt,
          (es.foldl (nearerPiece src) ⟨0, d, c⟩).distance) = lineProjection e.1 e.2 src ∧
        ∀ e' ∈ es, (lineProjection e.1 e.2 src).2 ≤ (lineProjection e'.1 e'.2 src).2 := by
  induction es using reverseRecOn with
  | nil => exact absurd rfl hes
  | append_singleton es e' ih =>
      rw [foldl_append, foldl_cons, foldl_nil]
      by_cases hnil : es = []
      · subst hnil
        refine ⟨by simp [nearerPiece], e', mem_singleton_self e', by simp [nearerPiece], ?_⟩
        exact fun e he => (mem_singleton.mp he) ▸ le_rfl
      · obtain ⟨hindex, e, he, heq, hle⟩ := ih hnil
        generalize es.foldl (nearerPiece src) ⟨0, d, c⟩ = acc at hindex heq
        have hdist : acc.distance = (lineProjection e.1 e.2 src).2 := congrArg Prod.snd heq
        simp only [nearerPiece, if_neg hindex]
        split_ifs with hlt
        · refine ⟨Nat.succ_ne_zero _, e', by simp, rfl, fun e₁ he₁ => ?_⟩
          rw [hdist] at hlt
          rcases mem_append.mp he₁ with he₁ | he₁
          · exact hlt.le.trans (hle e₁ he₁)
          · exact (mem_singleton.mp he₁) ▸ le_rfl
        · refine ⟨Nat.succ_ne_zero _, e, mem_append_left _ he, heq, fun e₁ he₁ => ?_⟩
          rw [hdist] at hlt
          rcases mem_append.mp he₁ with he₁ | he₁
          · exact hle e₁ he₁
          · exact (mem_singleton.mp he₁) ▸ not_lt.mp hlt

theorem closest_foldl_nearerPiece (hes : es ≠ []) (d : ℚ) (c : Point ℚ) : Closest src (OnPieces es)
      ((es.foldl (nearerPiece src) ⟨0, d, c⟩).distance,
        (es.foldl (nearerPiece src) ⟨0, d, c⟩).crossPt) := by
  obtain ⟨-, e, he, heq, hle⟩ := foldl_nearerPiece hes d c
  have hclosest := Closest.of_pieces he hle
  rw [← heq] at hclosest
  exact hclosest

/-- The pieces of a lane that the loops over all lanes look at. -/
def Laneseg.pieces (ls : Laneseg) : List (Point ℚ × Point ℚ) :=
  match ls.centerPts with
  | none => []
  | some pts => if ls.lane then pts.zip pts.tail else []

/-- The loop over all lanes is a loop over all pieces. -/
theorem foldl_nearerLane (src : Point ℚ) (lanesegs : List Laneseg) (acc : Nearest) :
    lanesegs.foldl (HdmapImpl.nearerLane src) acc =
      (lanesegs.flatMap Laneseg.pieces).foldl (nearerPiece src) acc := by
  induction lanesegs generalizing acc with
  | nil => rfl
  | cons ls lanesegs ih =>
      rw [foldl_cons, ih, flatMap_cons, foldl_append]
      congr 1
      unfold HdmapImpl.nearerLane Laneseg.pieces
      cases ls.centerPts with
      | none => rfl
      | some pts => cases ls.lane <;> rfl

/-! ## The lanes near a point -/

theorem near_iff {ls : Laneseg} {radius : ℚ} : ls.near src radius = true ↔
    ∃ e ∈ ls.pieces, 0 < radius ∧ (lineProjection e.1 e.2 src).2 < radius * radius := by
  unfold Laneseg.near Laneseg.pieces
  cases ls.centerPts with
  | none => simp
  | some pts =>
      cases ls.lane
      · simp
      · simp
        rfl

/-- A loop that appends some of the indices keeps their order. -/
theorem foldl_sublist {f : List ℕ → ℕ → List ℕ}
    (hf : ∀ tmp i, f tmp i = tmp ∨ f tmp i = pushNew tmp i) {idx tmp : List ℕ}
    (hnodup : (tmp ++ idx).Nodup) : List.Sublist (idx.foldl f tmp) (tmp ++ idx) := by
  induction idx generalizing tmp with
  | nil => simp
  | cons i idx ih =>
      have hskip : List.Sublist (tmp ++ idx) (tmp ++ i :: idx) :=
        (sublist_cons_self i idx).append_left tmp
      rw [foldl_cons]
      rcases hf tmp i with h | h
      · rw [h]
        exact (ih (hnodup.sublist hskip)).trans hskip
      · have hi : i ∉ tmp := fun hmem =>
          disjoint_of_nodup_append hnodup hmem mem_cons_self
        rw [h, pushNew, if_neg hi]
        have hpush : List.Sublist (idx.foldl f (tmp ++ [i])) (tmp ++ [i] ++ idx) :=
          ih (by simpa using hnodup)
        rwa [append_assoc, singleton_append] at hpush

namespace HdmapImpl

theorem getLanesNearPtEnu_sorted (m : HdmapImpl) (p : Point ℚ) (radius : ℚ) :
    (m.getLanesNearPtEnu p radius).Pairwise (· < ·) := by
  unfold getLanesNearPtEnu
  split
  · exact .nil
  · split
    · exact .nil
    · split_ifs
      · exact .nil
      · exact .nil
      · exact .nil
      · refine List.Pairwise.sublist (foldl_sublist (fun tmp i => ?_) ?_) pairwise_lt_range
        · split
          · exact .inl rfl
          · split_ifs
            · exact .inr rfl
            · exact .inl rfl
        · exact nodup_range

/-! ## The three functions -/

end HdmapImpl

/-- The point is in the box of the map. -/
def Header.Has (hdr : Header) (p : Point ℚ) : Prop :=
  ¬ (p.x < hdr.xmin ∨ p.x > hdr.xmax ∨ p.y < hdr.ymin ∨ p.y > hdr.ymax)

namespace HdmapImpl

variable (m : HdmapImpl)

/-- A lane that has data, with a centre line of at least two points. -/
def HasData (lane : ℕ) (pts : List (Point ℚ)) : Prop :=
  ∃ ls, m.lanesegs[lane]? = some ls ∧ ls.centerPts = some pts ∧ 2 ≤ pts.length

/-- A lane that has data and whose lane pointer is set. -/
def HasCentralLine (lane : ℕ) (pts : List (Point ℚ)) : Prop :=
  ∃ ls, m.lanesegs[lane]? = some ls ∧ ls.lane = true ∧ ls.centerPts = some pts ∧ 2 ≤ pts.length

/-- The distance to a lane is that to its nearest point. -/
def CurveRight (p c : Point ℚ) : Prop :=
  ∀ lane pts, m.HasData lane pts → ∃ r, m.getDistancePtCurveEnu p lane c = .ok r ∧
    Closest p (OnPieces (pts.zip pts.tail)) r

/-- The functions that look at all lanes, of which some are counted, find the nearest ones. -/
structure LinesRight (counted : ℕ → List (Point ℚ) → Prop) (p c : Point ℚ) : Prop where
  closest : (∃ lane pts, counted lane pts) →
    ∃ r, m.getDistancePtClosestCentralLineEnu p c = .ok r ∧
      Closest p (fun q => ∃ lane pts, counted lane pts ∧ OnPieces (pts.zip pts.tail) q) r ∧
      IsLeast { s | ∃ lane pts q, counted lane pts ∧
        m.getDistancePtCurveEnu p lane c = .ok (s, q) } r.1
  sorted : ∀ radius, (m.getLanesNearPtEnu p radius).Pairwise (· < ·)
  near : ∀ radius lane, lane ∈ m.getLanesNearPtEnu p radius ↔ ∃ pts r, counted lane pts ∧
    m.getDistancePtCurveEnu p lane c = .ok r ∧ 0 < radius ∧ r.1 < radius * radius

variable {m} {pts : List (Point ℚ)}

theorem HasCentralLine.hasData {lane : ℕ} (h : m.HasCentralLine lane pts) : m.HasData lane pts := by
  obtain ⟨ls, hls, -, hpts⟩ := h
  exact ⟨ls, hls, hpts⟩

theorem pieces_ne_nil (h : 2 ≤ pts.length) : pts.zip pts.tail ≠ [] := by
  intro hnil
  have := congrArg List.length hnil
  simp only [length_zip, length_tail, length_nil] at this
  omega

theorem getDistancePtCurveEnu_eq {hdr : Header} (hhdr : m.header = some hdr)
    (hpers : hdr.persistence = true) {lane : ℕ} {ls : Laneseg} (hls : m.lanesegs[lane]? = some ls)
    (hpts : ls.centerPts = some pts) (p c : Point ℚ) :
    m.getDistancePtCurveEnu p lane c =
      .ok (((pts.zip pts.tail).foldl (nearerPiece p) ⟨0, 0, c⟩).distance,
        ((pts.zip pts.tail).foldl (nearerPiece p) ⟨0, 0, c⟩).crossPt) := by
  have hlen : m.lanesegs.length ≠ 0 := by
    have := (List.getElem?_eq_some_iff.mp hls).1
    omega
  unfold getDistancePtCurveEnu
  simp only [hhdr, hpers, hls, hpts, if_neg hlen, Bool.not_true, Bool.false_eq_true, if_false]

theorem curveRight {hdr : Header} (hhdr : m.header = some hdr) (hpers : hdr.persistence = true)
    (p c : Point ℚ) : m.CurveRight p c := by
  rintro lane pts ⟨ls, hls, hpts, hlen⟩
  exact ⟨_, getDistancePtCurveEnu_eq hhdr hpers hls hpts p c,
    closest_foldl_nearerPiece (pieces_ne_nil hlen) 0 c⟩

variable {e : Point ℚ × Point ℚ}

theorem mem_pieces {ls : Laneseg} : e ∈ ls.pieces ↔
    ∃ pts, ls.lane = true ∧ ls.centerPts = some pts ∧ e ∈ pts.zip pts.tail := by
  unfold Laneseg.pieces
  cases ls.centerPts with
  | none => simp
  | some pts => cases ls.lane <;> simp

theorem two_le_of_mem_zip (h : e ∈ pts.zip pts.tail) : 2 ≤ pts.length := by
  have := length_pos_of_mem h
  simp only [length_zip, length_tail] at this
  omega

/-- The pieces of all lanes make up their centre lines. -/
theorem onPieces_flatMap {q : Point ℚ} : OnPieces (m.lanesegs.flatMap Laneseg.pieces) q ↔
    ∃ lane pts, m.HasCentralLine lane pts ∧ OnPieces (pts.zip pts.tail) q := by
  constructor
  · rintro ⟨e, he, hq⟩
    obtain ⟨ls, hls, he⟩ := mem_flatMap.mp he
    obtain ⟨pts, hlane, hpts, he⟩ := mem_pieces.mp he
    obtain ⟨lane, hlane'⟩ := mem_iff_getElem?.mp hls
    exact ⟨lane, pts, ⟨ls, hlane', hlane, hpts, two_le_of_mem_zip he⟩, e, he, hq⟩
  · rintro ⟨lane, pts, ⟨ls, hls, hlane, hpts, -⟩, e, he, hq⟩
    exact ⟨e, mem_flatMap.mpr ⟨ls, mem_of_getElem? hls,
      mem_pieces.mpr ⟨pts, hlane, hpts, he⟩⟩, hq⟩

section Loaded

variable {hdr : Header} (hhdr : m.header = some hdr) (hpers : hdr.persistence = true)
  (hkdtree : m.lanebdyKdtree = true) {p : Point ℚ} (hin : hdr.Has p) (c : Point ℚ)
include hhdr hpers hkdtree hin

theorem getDistancePtClosestCentralLineEnu_closest (hline : ∃ lane pts, m.HasCentralLine lane pts) :
    ∃ r, m.getDistancePtClosestCentralLineEnu p c = .ok r ∧ Closest p
      (fun q => ∃ lane pts, m.HasCentralLine lane pts ∧ OnPieces (pts.zip pts.tail) q) r := by
  obtain ⟨lane, pts, ls, hls, hlane, hpts, hlen⟩ := hline
  have hmem := mem_of_getElem? hls
  have hes : m.lanesegs.flatMap Laneseg.pieces ≠ [] := by
    obtain ⟨e, he⟩ := exists_mem_of_ne_nil _ (pieces_ne_nil hlen)
    exact ne_nil_of_mem
      (mem_flatMap.mpr ⟨ls, hmem, mem_pieces.mpr ⟨pts, hlane, hpts, he⟩⟩)
  have hset : OnPieces (m.lanesegs.flatMap Laneseg.pieces) = fun q =>
      ∃ lane pts, m.HasCentralLine lane pts ∧ OnPieces (pts.zip pts.tail) q :=
    funext fun _ => propext onPieces_flatMap
  refine ⟨_, ?_, hset ▸ closest_foldl_nearerPiece hes 0 c⟩
  have hlen : m.lanesegs.length ≠ 0 := length_pos_of_mem hmem |>.ne'
  unfold getDistancePtClosestCentralLineEnu
  simp only [hkdtree, hhdr, hpers, if_neg hlen, if_neg (show ¬ (_ ∨ _) from hin), Bool.not_true,
    Bool.false_eq_true, if_false, foldl_nearerLane]

theorem mem_getLanesNearPtEnu_iff (radius : ℚ) (lane : ℕ) :
    lane ∈ m.getLanesNearPtEnu p radius ↔ ∃ pts r, m.HasCentralLine lane pts ∧
      m.getDistancePtCurveEnu p lane c = .ok r ∧ 0 < radius ∧ r.1 < radius * radius := by
  rw [m.mem_getLanesNearPtEnu hkdtree hhdr hpers hin]
  constructor
  · rintro ⟨ls, hls, hnear⟩
    obtain ⟨e, he, hradius, hlt⟩ := near_iff.mp hnear
    obtain ⟨pts, hlane, hpts, he⟩ := mem_pieces.mp he
    have hline : m.HasCentralLine lane pts := ⟨ls, hls, hlane, hpts, two_le_of_mem_zip he⟩
    obtain ⟨r, hr, hclosest⟩ := curveRight hhdr hpers p c lane pts hline.hasData
    have hpiece := projection_closest e p
    have hle := hclosest.least _ ⟨e, he, hpiece.mem⟩
    rw [← hpiece.dist] at hle
    exact ⟨pts, r, hline, hr, hradius, hle.trans_lt hlt⟩
  · rintro ⟨pts, r, hline, hr, hradius, hlt⟩
    obtain ⟨r', hr', hclosest⟩ := curveRight hhdr hpers p c lane pts hline.hasData
    cases hr.symm.trans hr'
    obtain ⟨ls, hls, hlane, hpts, -⟩ := hline
    obtain ⟨e, he, hq⟩ := hclosest.mem
    have hle := (projection_closest e p).least _ hq
    rw [← hclosest.dist] at hle
    exact ⟨ls, hls, near_iff.mpr
      ⟨e, mem_pieces.mpr ⟨pts, hlane, hpts, he⟩, hradius, hle.trans_lt hlt⟩⟩

theorem linesRight : m.LinesRight m.HasCentralLine p c where
  closest hline := by
    obtain ⟨r, hr, hclosest⟩ :=
      getDistancePtClosestCentralLineEnu_closest hhdr hpers hkdtree hin c hline
    refine ⟨r, hr, hclosest, ?_, ?_⟩
    · -- the lane that has the closest point
      obtain ⟨lane, pts, hline, hmem⟩ := hclosest.mem
      obtain ⟨r', hr', hclosest'⟩ := curveRight hhdr hpers p c lane pts hline.hasData
      have hle : r'.1 ≤ r.1 := (hclosest'.least _ hmem).trans_eq hclosest.dist.symm
      have hge : r.1 ≤ r'.1 :=
        (hclosest.least _ ⟨lane, pts, hline, hclosest'.mem⟩).trans_eq hclosest'.dist.symm
      exact ⟨lane, pts, r'.2, hline, le_antisymm hge hle ▸ hr'⟩
    · rintro s ⟨lane, pts, q, hline, hs⟩
      obtain ⟨r', hr', hclosest'⟩ := curveRight hhdr hpers p c lane pts hline.hasData
      cases hs.symm.trans hr'
      exact (hclosest.least _ ⟨lane, pts, hline, hclosest'.mem⟩).trans_eq hclosest'.dist.symm
  sorted radius := m.getLanesNearPtEnu_sorted p radius
  near := mem_getLanesNearPtEnu_iff hhdr hpers hkdtree hin c

end Loaded

/-- **The distances** to one lane and to all of them are least and taken in the points given,
and the lanes listed are those whose distance is below the radius. -/
theorem centralLines_spec (m : HdmapImpl) {hdr : Header} (hhdr : m.header = some hdr)
    (hpers : hdr.persistence = true) (p c : Point ℚ) :
    m.CurveRight p c ∧
      (m.lanebdyKdtree = true → hdr.Has p → m.LinesRight m.HasCentralLine p c) :=
  ⟨curveRight hhdr hpers p c, fun hkdtree hin => linesRight hhdr hpers hkdtree hin c⟩

end HdmapImpl

/-- A box of ten by ten with two lanes across it. The lane pointer of the second is not set. -/
def twoCentralLines : HdmapImpl where
  lanebdyKdtree := true
  header := some ⟨true, 0, 10, 0, 10⟩
  lanesegs := [⟨some [⟨0, 0⟩, ⟨10, 0⟩], true⟩, ⟨some [⟨0, 4⟩, ⟨10, 4⟩], false⟩]
  lscTransitions _ := none

theorem centralLines_spec_two : twoCentralLines.CurveRight ⟨5, 4⟩ ⟨0, 0⟩ ∧
    (twoCentralLines.lanebdyKdtree = true → Header.Has ⟨true, 0, 10, 0, 10⟩ ⟨5, 4⟩ →
      twoCentralLines.LinesRight twoCentralLines.HasCentralLine ⟨5, 4⟩ ⟨0, 0⟩) :=
  twoCentralLines.centralLines_spec rfl rfl ⟨5, 4⟩ ⟨0, 0⟩

/-- The first lane is near a point below the box and not listed, nor is the second lane, which
has data, at a point on it. -/
theorem not_linesRight_hasData :
    ¬ twoCentralLines.LinesRight twoCentralLines.HasData ⟨5, -1⟩ ⟨0, 0⟩ ∧
      ¬ twoCentralLines.LinesRight twoCentralLines.HasData ⟨5, 4⟩ ⟨0, 0⟩ := by
  constructor
  · intro h
    have hnear := (h.near 2 0).mpr ⟨[⟨0, 0⟩, ⟨10, 0⟩], (1, ⟨5, 0⟩), ⟨_, rfl, rfl, by decide⟩,
      by decide +kernel, by decide, by decide +kernel⟩
    exact absurd hnear (by decide +kernel)
  · intro h
    have hnear := (h.near 1 1).mpr ⟨[⟨0, 4⟩, ⟨10, 4⟩], (0, ⟨5, 4⟩), ⟨_, rfl, rfl, by decide⟩,
      by decide +kernel, by decide, by decide +kernel⟩
    exact absurd hnear (by decide +kernel)

end V2I.Hdmap
