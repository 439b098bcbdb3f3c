import Mathlib.Algebra.Order.BigOperators.Group.List
import Mathlib.Algebra.Order.Field.Rat
import Mathlib.Algebra.Order.Ring.NNRat
import V2I.MapCore.Kdtree

/-!
# V2I.MapCore.Hdmap

The part of `mapcore/hdmap-impl.cpp` that lane matching asks for: which lanes are near a
point or a trajectory (`get_lanes_near_pt_enu`), how far from a lane (`get_distance_pt_curve_enu`), and how likely a vehicle moves from one
lane of a list to one of another list (`CalculateTransitionalProbability`).

Coordinates are exact rationals; as in `V2I.MapCore.Kdtree` a distance is kept by its
square. A lane is its index in the table of lane segments.
-/

namespace V2I.Hdmap

open List

/-- A lane segment: the points of its centre line (`none` for a null `data.ptr`), and
whether its `lane.ptr` is set. -/
structure Laneseg where
  centerPts : Option (List (Point ℚ))
  lane : Bool

/-- The fields of the map's header that are read here. -/
structure Header where
  persistence : Bool
  xmin : ℚ
  xmax : ℚ
  ymin : ℚ
  ymax : ℚ

/-- Where a lane leads to. The two neighbour tables are `std::map`s from the number of a
neighbour to its lane. -/
structure LanesectTransition where
  lscNextIndex : List ℕ
  lscLeftIndex : List (ℕ × ℕ)
  lscRightIndex : List (ℕ × ℕ)

/-- A loaded map. `lanesegs` has `laneseg_count` entries. -/
structure HdmapImpl where
  /-- is `_lanebdy_kdtree` built? -/
  lanebdyKdtree : Bool
  header : Option Header
  lanesegs : List Laneseg
  lscTransitions : ℕ → Option LanesectTransition

/-! ## Lanes near a point -/

/-- `POINT_DISTANCE`, squared. -/
def pointDistanceSq (dx dy : ℚ) : ℚ :=
  dx * dx + dy * dy

/-- `get_line_projection_distance(pt1, pt2, pt, ppt, s)`: `ppt`, and `s` squared. -/
def lineProjection (p1 p2 p : Point ℚ) : Point ℚ × ℚ :=
  let cross := (p2.x - p1.x) * (p.x - p1.x) + (p2.y - p1.y) * (p.y - p1.y)
  if cross ≤ 0 then (⟨p1.x, p1.y⟩, pointDistanceSq (p.x - p1.x) (p.y - p1.y))
  else
    let d2 := (p2.x - p1.x) * (p2.x - p1.x) + (p2.y - p1.y) * (p2.y - p1.y)
    if d2 ≤ cross then (⟨p2.x, p2.y⟩, pointDistanceSq (p.x - p2.x) (p.y - p2.y))
    else
      let r := cross / d2
      let px := p1.x + (p2.x - p1.x) * r
      let py := p1.y + (p2.y - p1.y) * r
      (⟨px, py⟩, pointDistanceSq (px - p.x) (py - p.y))

/-- The squared distance from `p` to its projection on the line from `p1` to `p2`. -/
def getLineProjectionDistance (p1 p2 p : Point ℚ) : ℚ := (lineProjection p1 p2 p).2

/-- What a loop over pieces keeps: the number of pieces seen, the least distance and its
point. -/
structure Nearest where
  index : ℕ
  distance : ℚ
  crossPt : Point ℚ

/-- A round of either loop. The first piece initialises what is kept. -/
def nearerPiece (src : Point ℚ) (acc : Nearest) (e : Point ℚ × Point ℚ) : Nearest :=
  let (des, s) := lineProjection e.1 e.2 src
  if acc.index = 0 then ⟨acc.index + 1, s, des⟩
  else if s < acc.distance then ⟨acc.index + 1, s, des⟩
  else ⟨acc.index + 1, acc.distance, acc.crossPt⟩

/-- Is some piece of the centre line closer than `radius`? -/
def Laneseg.near (ls : Laneseg) (src : Point ℚ) (radius : ℚ) : Bool :=
  match ls.centerPts with
  | none => false
  | some pts =>
      ls.lane && (pts.zip pts.tail).any fun e =>
        decide (0 < radius) && decide (getLineProjectionDistance e.1 e.2 src < radius * radius)

/-- Append a lane that is not in the list yet. -/
def pushNew (tmp : List ℕ) (i : ℕ) : List ℕ :=
  if i ∈ tmp then tmp else tmp ++ [i]

namespace HdmapImpl

/-- `get_lanes_near_pt_enu(p3d, radius)`. -/
def getLanesNearPtEnu (m : HdmapImpl) (p3d : Point ℚ) (radius : ℚ) : List ℕ :=
  if !m.lanebdyKdtree then []
  else
    match m.header with
    | none => []
    | some hdr =>
        if !hdr.persistence then []
        else if m.lanesegs.length = 0 then []
        else if p3d.x < hdr.xmin ∨ p3d.x > hdr.xmax ∨ p3d.y < hdr.ymin ∨ p3d.y > hdr.ymax then []
        else
          (List.range m.lanesegs.length).foldl (fun tmp i =>
            match m.lanesegs[i]? with
            | none => tmp
            | some ls => if ls.near p3d radius then pushNew tmp i else tmp) []

/-- `get_lanes_near_pt_enu(trajectory, radius)`: the lanes near any point, in the order in
which they are first met. -/
def getLanesNearTrajectory (m : HdmapImpl) (trajectory : List (Point ℚ)) (radius : ℚ) : List ℕ :=
  if !m.lanebdyKdtree then []
  else
    match m.header with
    | none => []
    | some hdr =>
        if !hdr.persistence then []
        else if m.lanesegs.length = 0 then []
        else trajectory.foldl (fun tmp p => (m.getLanesNearPtEnu p radius).foldl pushNew tmp) []

/-- `get_distance_pt_curve_enu(pt_enu, lane_id, cross_pt_curve)` -/
def getDistancePtCurveEnu (m : HdmapImpl) (ptEnu : Point ℚ) (laneId : ℕ) (crossPtCurve : Point ℚ) :
    Except ℤ (ℚ × Point ℚ) :=
  match m.header with
  | none => .error (-1)
  | some hdr =>
      if !hdr.persistence then .error (-2)
      else if m.lanesegs.length = 0 then .error (-3)
      else
        match m.lanesegs[laneId]? with
        | none => .error (-4)
        | some ls =>
            match ls.centerPts with
            | none => .error (-5)
            | some pts =>
                let acc := (pts.zip pts.tail).foldl (nearerPiece ptEnu) ⟨0, 0, crossPtCurve⟩
                .ok (acc.distance, acc.crossPt)

/-! ## Transition probabilities -/

/-- `index[0]` of a `std::map`: a missing key reads as the value 0. -/
def atZero (index : List (ℕ × ℕ)) : ℕ :=
  (index.lookup 0).getD 0

/-- The weight of a step before its row is normalized. -/
def linkWeight (m : HdmapImpl) (laneId1 laneId2 : ℕ) : ℚ≥0 :=
  if laneId1 = laneId2 then 1
  else
    match m.lscTransitions laneId1 with
    | none => 0
    | some lanesect =>
        if laneId2 ∈ lanesect.lscNextIndex ∨
            (lanesect.lscLeftIndex ≠ [] ∧ laneId2 = atZero lanesect.lscLeftIndex) ∨
            (lanesect.lscRightIndex ≠ [] ∧ laneId2 = atZero lanesect.lscRightIndex) then 7 / 10
        else 0

/-- Divide a row by its sum. -/
def normalizeRow (row : List ℚ≥0) : List ℚ≥0 :=
  if 0 < row.sum then row.map (· / row.sum) else row

/-- `CalculateTransitionalProbability(lanes_id_1, lanes_id_2)`, row by row. -/
def calculateTransitionalProbability (m : HdmapImpl) (lanesId1 lanesId2 : List ℕ) :
    List (List ℚ≥0) :=
  lanesId1.map fun laneId1 => normalizeRow (lanesId2.map (m.linkWeight laneId1))

end HdmapImpl

/-! ## Facts about the lane lists -/

variable {tmp : List ℕ}

theorem mem_pushNew : j ∈ pushNew tmp i ↔ j ∈ tmp ∨ j = i := by
  unfold pushNew
  split
  · next h =>
      constructor
      · exact Or.inl
      · rintro (h' | rfl)
        · exact h'
        · exact h
  · simp

theorem nodup_pushNew (h : tmp.Nodup) (i : ℕ) : (pushNew tmp i).Nodup := by
  unfold pushNew
  split
  · exact h
  · next hi =>
      rw [← concat_eq_append]
      exact h.concat hi

theorem prefix_pushNew (tmp : List ℕ) (i : ℕ) : tmp <+: pushNew tmp i := by
  unfold pushNew
  split
  · exact prefix_refl _
  · exact prefix_append _ _

theorem mem_foldl_pushNew {l : List ℕ} : j ∈ l.foldl pushNew tmp ↔ j ∈ tmp ∨ j ∈ l := by
  induction l generalizing tmp with
  | nil => simp
  | cons i l ih => rw [foldl_cons, ih, mem_pushNew, mem_cons, or_assoc]

theorem nodup_foldl_pushNew (h : tmp.Nodup) (l : List ℕ) : (l.foldl pushNew tmp).Nodup := by
  induction l generalizing tmp with
  | nil => exact h
  | cons i l ih => exact ih (nodup_pushNew h i)

theorem prefix_foldl_pushNew (l tmp : List ℕ) : tmp <+: l.foldl pushNew tmp := by
  induction l generalizing tmp with
  | nil => exact prefix_refl _
  | cons i l ih => exact (prefix_pushNew tmp i).trans (ih _)

theorem foldl_pushNew_of_nodup {l : List ℕ} (h : (tmp ++ l).Nodup) :
    l.foldl pushNew tmp = tmp ++ l := by
  induction l generalizing tmp with
  | nil => simp
  | cons i l ih =>
      have hi : i ∉ tmp := fun hmem =>
        (disjoint_of_nodup_append h) hmem mem_cons_self
      rw [foldl_cons, pushNew, if_neg hi, ih (by simpa using h)]
      simp

namespace HdmapImpl

variable {m : HdmapImpl} {radius : ℚ}

/-- The scan over the lane segments lists, without repetition, lanes that exist. -/
theorem nodup_foldl_scan (m : HdmapImpl) (p3d : Point ℚ) (radius : ℚ) (idx : List ℕ)
    (hidx : ∀ i ∈ idx, i < m.lanesegs.length) (h : tmp.Nodup)
    (hlt : ∀ i ∈ tmp, i < m.lanesegs.length) :
    (idx.foldl (fun tmp i =>
        match m.lanesegs[i]? with
        | none => tmp
        | some ls => if ls.near p3d radius then pushNew tmp i else tmp) tmp).Nodup ∧
      ∀ j ∈ idx.foldl (fun tmp i =>
        match m.lanesegs[i]? with
        | none => tmp
        | some ls => if ls.near p3d radius then pushNew tmp i else tmp) tmp,
        j < m.lanesegs.length := by
  induction idx generalizing tmp with
  | nil => exact ⟨h, hlt⟩
  | cons i idx ih =>
      rw [foldl_cons]
      have hrest : ∀ j ∈ idx, j < m.lanesegs.length := fun j hj =>
        hidx j (mem_cons_of_mem _ hj)
      have hpush : ∀ j ∈ pushNew tmp i, j < m.lanesegs.length := by
        intro j hj
        rcases mem_pushNew.mp hj with hj | rfl
        · exact hlt j hj
        · exact hidx j mem_cons_self
      cases m.lanesegs[i]? with
      | none => exact ih hrest h hlt
      | some ls =>
          by_cases hnear : ls.near p3d radius
          · simp only [hnear, if_true]
            exact ih hrest (nodup_pushNew h i) hpush
          · simp only [hnear]
            exact ih hrest h hlt

/-- What the scan finds. -/
theorem mem_foldl_scan (m : HdmapImpl) (p : Point ℚ) (radius : ℚ) (idx tmp : List ℕ) (j : ℕ) :
    j ∈ idx.foldl (fun tmp i =>
        match m.lanesegs[i]? with
        | none => tmp
        | some ls => if ls.near p radius then pushNew tmp i else tmp) tmp ↔
      j ∈ tmp ∨ j ∈ idx ∧ ∃ ls, m.lanesegs[j]? = some ls ∧ ls.near p radius = true := by
  induction idx generalizing tmp with
  | nil => simp
  | cons i idx ih =>
      rw [foldl_cons, ih, mem_cons]
      cases hls : m.lanesegs[i]? with
      | none =>
          constructor
          · rintro (h | ⟨h, hnear⟩)
            · exact Or.inl h
            · exact Or.inr ⟨Or.inr h, hnear⟩
          · rintro (h | ⟨rfl | h, hnear⟩)
            · exact Or.inl h
            · obtain ⟨ls, hls', -⟩ := hnear
              rw [hls] at hls'
              cases hls'
            · exact Or.inr ⟨h, hnear⟩
      | some ls =>
          by_cases hnear : ls.near p radius = true
          · simp only [hnear, if_true, mem_pushNew]
            constructor
            · rintro ((h | rfl) | ⟨h, hj⟩)
              · exact Or.inl h
              · exact Or.inr ⟨Or.inl rfl, ls, hls, hnear⟩
              · exact Or.inr ⟨Or.inr h, hj⟩
            · rintro (h | ⟨rfl | h, hj⟩)
              · exact Or.inl (Or.inl h)
              · exact Or.inl (Or.inr rfl)
              · exact Or.inr ⟨h, hj⟩
          · simp only [hnear]
            constructor
            · rintro (h | ⟨h, hj⟩)
              · exact Or.inl h
              · exact Or.inr ⟨Or.inr h, hj⟩
            · rintro (h | ⟨rfl | h, hj⟩)
              · exact Or.inl h
              · obtain ⟨ls', hls', hnear'⟩ := hj
                rw [hls, Option.some_inj] at hls'
                exact absurd (hls' ▸ hnear') hnear
              · exact Or.inr ⟨h, hj⟩

/-- Within the box of a loaded map the lanes near a point are those with a piece close to it. -/
theorem mem_getLanesNearPtEnu (m : HdmapImpl) {hdr : Header} {p : Point ℚ}
    (hkdtree : m.lanebdyKdtree = true) (hhdr : m.header = some hdr) (hpers : hdr.persistence = true)
    (hin : ¬ (p.x < hdr.xmin ∨ p.x > hdr.xmax ∨ p.y < hdr.ymin ∨ p.y > hdr.ymax)) (radius : ℚ)
    (j : ℕ) :
    j ∈ m.getLanesNearPtEnu p radius ↔
      ∃ ls, m.lanesegs[j]? = some ls ∧ ls.near p radius = true := by
  have hrange : ∀ ls, m.lanesegs[j]? = some ls → j ∈ List.range m.lanesegs.length := fun ls hls =>
    List.mem_range.mpr (List.getElem?_eq_some_iff.mp hls).1
  unfold getLanesNearPtEnu
  rw [hkdtree, hhdr]
  simp only [hpers, Bool.not_true, Bool.false_eq_true, if_false, if_neg hin]
  split_ifs with hlen
  · simp [length_eq_zero_iff.mp hlen]
  · rw [mem_foldl_scan]
    constructor
    · rintro (h | ⟨-, h⟩)
      · cases h
      · exact h
    · rintro ⟨ls, hls, hnear⟩
      exact Or.inr ⟨hrange ls hls, ls, hls, hnear⟩

theorem nearPt_spec (m : HdmapImpl) (p3d : Point ℚ) (radius : ℚ) :
    (m.getLanesNearPtEnu p3d radius).Nodup ∧
      ∀ j ∈ m.getLanesNearPtEnu p3d radius, j < m.lanesegs.length := by
  have hnil : ([] : List ℕ).Nodup ∧ ∀ j ∈ ([] : List ℕ), j < m.lanesegs.length := by simp
  unfold getLanesNearPtEnu
  split
  · exact hnil
  · split
    · exact hnil
    · split_ifs
      · exact hnil
      · exact hnil
      · exact hnil
      · exact nodup_foldl_scan m p3d radius _ (fun i hi => mem_range.mp hi) hnil.1 hnil.2

/-- Where the map is not loaded no point has a lane, so the checks of the trajectory
overload change nothing. -/
theorem getLanesNearTrajectory_eq (m : HdmapImpl) (trajectory : List (Point ℚ)) (radius : ℚ) :
    m.getLanesNearTrajectory trajectory radius =
      trajectory.foldl (fun tmp p => (m.getLanesNearPtEnu p radius).foldl pushNew tmp) [] := by
  have hnone : (∀ p, m.getLanesNearPtEnu p radius = []) →
      trajectory.foldl (fun tmp p => (m.getLanesNearPtEnu p radius).foldl pushNew tmp) [] =
        [] := by
    intro h
    simp only [h, foldl_nil]
    induction trajectory with
    | nil => rfl
    | cons p ps ih => exact ih
  unfold getLanesNearTrajectory
  split
  · next h => exact (hnone fun p => by rw [getLanesNearPtEnu, if_pos h]).symm
  · next h =>
      split
      · next hh => exact (hnone fun p => by rw [getLanesNearPtEnu, if_neg h, hh]).symm
      · next hdr hh =>
          split_ifs with hp hc
          · exact (hnone fun p => by rw [getLanesNearPtEnu, if_neg h, hh]; simp [hp]).symm
          · exact (hnone fun p => by rw [getLanesNearPtEnu, if_neg h, hh]; simp [hc]).symm
          · rfl

theorem foldl_near_spec (m : HdmapImpl) (radius : ℚ) (pts : List (Point ℚ)) (h : tmp.Nodup) :
    tmp <+: pts.foldl (fun tmp p => (m.getLanesNearPtEnu p radius).foldl pushNew tmp) tmp ∧
      (pts.foldl (fun tmp p => (m.getLanesNearPtEnu p radius).foldl pushNew tmp) tmp).Nodup ∧
      ∀ j, j ∈ pts.foldl (fun tmp p => (m.getLanesNearPtEnu p radius).foldl pushNew tmp) tmp ↔
        j ∈ tmp ∨ ∃ p ∈ pts, j ∈ m.getLanesNearPtEnu p radius := by
  induction pts generalizing tmp with
  | nil => exact ⟨prefix_refl _, h, by simp⟩
  | cons p pts ih =>
      obtain ⟨hpre, hnd, hmem⟩ := ih (nodup_foldl_pushNew h (m.getLanesNearPtEnu p radius))
      refine ⟨(prefix_foldl_pushNew _ _).trans hpre, hnd, fun j => ?_⟩
      rw [foldl_cons, hmem, mem_foldl_pushNew]
      simp only [mem_cons, exists_eq_or_imp]
      exact or_assoc

/-- **The lanes of a trajectory** are those near one of its points, each once, and those
of the first point come first. -/
theorem getLanesNearTrajectory_spec (m : HdmapImpl) (p : Point ℚ) (pts : List (Point ℚ))
    (radius : ℚ) :
    m.getLanesNearPtEnu p radius <+: m.getLanesNearTrajectory (p :: pts) radius ∧
      (m.getLanesNearTrajectory (p :: pts) radius).Nodup ∧
      ∀ j, j ∈ m.getLanesNearTrajectory (p :: pts) radius ↔
        ∃ q ∈ p :: pts, j ∈ m.getLanesNearPtEnu q radius := by
  rw [getLanesNearTrajectory_eq, foldl_cons,
    foldl_pushNew_of_nodup (by simpa using (nearPt_spec m p radius).1), nil_append]
  obtain ⟨hpre, hnd, hmem⟩ := foldl_near_spec m radius pts (nearPt_spec m p radius).1
  refine ⟨hpre, hnd, fun j => ?_⟩
  rw [hmem]
  simp only [mem_cons, exists_eq_or_imp]

/-! ## Facts about transition probabilities -/

/-- The probability of the step from `a` to `b`, one of the lanes `l`. -/
def transition (m : HdmapImpl) (a : ℕ) (l : List ℕ) (b : ℕ) : ℚ≥0 :=
  if 0 < (l.map (m.linkWeight a)).sum then m.linkWeight a b / (l.map (m.linkWeight a)).sum
  else m.linkWeight a b

/-- An entry of the matrix only depends on the two lanes it stands for. -/
theorem calculateTransitionalProbability_getElem {l1 l2 : List ℕ} {i j : ℕ} (hi : l1[i]? = some a)
    (hj : l2[j]? = some b) :
    ∃ row, (m.calculateTransitionalProbability l1 l2)[i]? = some row ∧
      row[j]? = some (m.transition a l2 b) := by
  refine ⟨normalizeRow (l2.map (m.linkWeight a)), ?_, ?_⟩
  · simp [calculateTransitionalProbability, hi]
  · unfold normalizeRow transition
    split <;> simp [hj]

theorem transition_le_one {l : List ℕ} (hb : b ∈ l) : m.transition a l b ≤ 1 := by
  have hle : m.linkWeight a b ≤ (l.map (m.linkWeight a)).sum :=
    single_le_sum (fun _ _ => zero_le) _ (mem_map_of_mem hb)
  unfold transition
  split
  · next h => exact (div_le_one₀ h).mpr hle
  · next h => exact (hle.trans (not_lt.mp h)).trans zero_le_one

theorem transition_pos {l : List ℕ} (hb : b ∈ l) (h : 0 < m.linkWeight a b) :
    0 < m.transition a l b := by
  have hle : m.linkWeight a b ≤ (l.map (m.linkWeight a)).sum :=
    single_le_sum (fun _ _ => zero_le) _ (mem_map_of_mem hb)
  unfold transition
  rw [if_pos (h.trans_le hle)]
  exact div_pos h (h.trans_le hle)

end HdmapImpl

end V2I.Hdmap
