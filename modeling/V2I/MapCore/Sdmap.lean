import V2I.Lib.Plane

/-!
# V2I.MapCore.Sdmap

The point of a link that is nearest to a source point (`sdmap.cpp`, `point_to_link`), in the plane
and with exact arithmetic: the foot on the line of the link, which is found by its slope, or else
one of the end nodes.

The result is right unless the link has a constant longitude, or has a constant latitude and its
foot inside.
-/

namespace V2I.Sdmap

open Plane

/-- `fullmap_linkinfo_v1`, by the positions of its nodes: the longitude and the latitude. -/
structure Link (K : Type*) where
  node1 : K × K
  node2 : K × K
  deriving DecidableEq

/-- `distance`: it grows with the distance in the plane, so with its square. -/
structure Metric (K : Type*) [Field K] [LinearOrder K] where
  ofSq : K → K
  strictMono : StrictMonoOn ofSq (Set.Ici 0)
  zero_le : 0 ≤ ofSq 0

variable {K : Type*} [Field K] [LinearOrder K]

/-- `distance(lon1, lat1, lon2, lat2)` -/
def Metric.distance (metric : Metric K) (p q : K × K) : K := metric.ofSq (dot (p - q) (p - q))

/-- One of the two tests of `point_in_link`, the ends of the range put in order. -/
def inRange (a b x : K) : Bool :=
  let (a, b) := if b < a then (b, a) else (a, b)
  !(x < a || b ≤ x)

/-- `point_in_link(link, lon, lat)` -/
def pointInLink (link : Link K) (p : K × K) : Bool :=
  inRange link.node1.2 link.node2.2 p.2 && inRange link.node1.1 link.node2.1 p.1

/-- The foot of a point on the line with a slope through a node. -/
def footPoint (k : K) (node src : K × K) : K × K :=
  let c := node.2 - k * node.1
  let a2 := k * k
  let a2b2 := a2 + 1
  ((src.1 + k * src.2 - k * c) / a2b2, (a2 * src.2 + k * src.1 + c) / a2b2)

/-- `point_to_link(link, srclon, srclat, dstlon, dstlat)`: the point and its distance, none where
it divides by zero. -/
def pointToLink (metric : Metric K) (link : Link K) (src : K × K) : Option ((K × K) × K) :=
  if link.node1.1 - link.node2.1 = 0 then none
  else
    let k := (link.node1.2 - link.node2.2) / (link.node1.1 - link.node2.1)
    let dst := footPoint k link.node1 src
    if pointInLink link dst then some (dst, metric.distance src dst)
    else
      let dist1 := metric.distance src link.node1
      let dist2 := metric.distance src link.node2
      if dist1 < dist2 then some (link.node1, dist1) else some (link.node2, dist2)

/-- A point of the closed link and its distance, which is the least of all its points. -/
structure Nearest (metric : Metric K) (link : Link K) (src : K × K) (r : (K × K) × K) : Prop where
  mem : r.1 ∈ segment K link.node1 link.node2
  dist : r.2 = metric.distance src r.1
  least : ∀ z ∈ segment K link.node1 link.node2, r.2 ≤ metric.distance src z

/-- The nodes have different longitudes; and where they have the same latitude, the source is not
strictly between them in longitude. -/
def Measurable (link : Link K) (src : K × K) : Prop :=
  link.node1.1 ≠ link.node2.1 ∧ (link.node1.2 ≠ link.node2.2 ∨
    src.1 ≤ min link.node1.1 link.node2.1 ∨ max link.node1.1 link.node2.1 ≤ src.1)

instance (link : Link K) (src : K × K) : Decidable (Measurable link src) :=
  inferInstanceAs (Decidable (_ ∧ _))

/-! ## ranges -/

omit [Field K] in
theorem inRange_eq_true_iff {a b x : K} : inRange a b x = true ↔ min a b ≤ x ∧ x < max a b := by
  unfold inRange
  split_ifs with h
  · simp [min_eq_right h.le, max_eq_left h.le]
  · simp [min_eq_left (not_lt.mp h), max_eq_right (not_lt.mp h)]

omit [Field K] in
theorem inRange_self (a x : K) : inRange a a x = false := by
  rw [Bool.eq_false_iff, Ne, inRange_eq_true_iff, min_self, max_self]
  exact fun h => absurd h.2 (not_lt.mpr h.1)

variable [IsStrictOrderedRing K]

/-- The range of two different numbers has the positions from 0 to 1, but for one of the ends. -/
theorem inRange_along {a b t : K} (hab : a ≠ b) :
    (inRange a b (a + t * (b - a)) = true → 0 ≤ t ∧ t ≤ 1) ∧
      (0 < t → t < 1 → inRange a b (a + t * (b - a)) = true) := by
  rw [inRange_eq_true_iff]
  rcases lt_or_gt_of_ne hab with h | h
  · have hpos := sub_pos.mpr h
    rw [min_eq_left h.le, max_eq_right h.le]
    constructor
    · rintro ⟨hle, hlt⟩
      exact ⟨nonneg_of_mul_nonneg_left (by linarith) hpos,
        le_of_mul_le_mul_right (by linarith) hpos⟩
    · intro ht ht'
      have hlow := mul_pos ht hpos
      have hhigh := mul_lt_mul_of_pos_right ht' hpos
      exact ⟨by linarith, by linarith⟩
  · have hpos := sub_pos.mpr h
    have hneg : t * (b - a) = -(t * (a - b)) := by ring
    rw [min_eq_right h.le, max_eq_left h.le, hneg]
    constructor
    · rintro ⟨hle, hlt⟩
      exact ⟨nonneg_of_mul_nonneg_left (by linarith) hpos,
        le_of_mul_le_mul_right (by linarith) hpos⟩
    · intro ht ht'
      have hlow := mul_pos ht hpos
      have hhigh := mul_lt_mul_of_pos_right ht' hpos
      exact ⟨by linarith, by linarith⟩

/-- **The range of a link** has its points but for one of the ends, when no coordinate is constant;
a link of constant latitude has no point in its range. -/
theorem pointInLink_along {link : Link K} (hlon : link.node1.1 ≠ link.node2.1) (t : K) :
    (pointInLink link (along link.node1 link.node2 t) = true → 0 ≤ t ∧ t ≤ 1) ∧
      (link.node1.2 ≠ link.node2.2 → 0 < t → t < 1 →
        pointInLink link (along link.node1 link.node2 t) = true) ∧
      (link.node1.2 = link.node2.2 →
        pointInLink link (along link.node1 link.node2 t) = false) := by
  unfold pointInLink
  rw [Bool.and_eq_true]
  refine ⟨fun h => (inRange_along hlon).1 h.2, fun hlat ht ht' => ?_, fun hlat => ?_⟩
  · exact ⟨(inRange_along hlat).2 ht ht', (inRange_along hlon).2 ht ht'⟩
  · rw [hlat, inRange_self, Bool.false_and]

/-! ## the foot -/

/-- **The foot** is what the slope gives. -/
theorem footPoint_eq {a b : K × K} (hlon : a.1 ≠ b.1) (src : K × K) :
    footPoint ((a.2 - b.2) / (a.1 - b.1)) a src = along a b (foot a b src) := by
  have hne : a.1 - b.1 ≠ 0 := sub_ne_zero.mpr hlon
  have hab : b - a ≠ 0 := fun h => hne (by
    have := congrArg Prod.fst h
    simp only [Prod.fst_sub, Prod.fst_zero] at this
    linarith)
  generalize hk : (a.2 - b.2) / (a.1 - b.1) = k
  have hslope : k * (a.1 - b.1) = a.2 - b.2 := by rw [← hk, div_mul_cancel₀ _ hne]
  have hpos : k * k + 1 ≠ 0 := by
    have := mul_self_nonneg k
    linarith
  -- the position of the foot, by the slope
  have hfoot : foot a b src * (b.1 - a.1) * (k * k + 1) =
      (src.1 - a.1) + k * (src.2 - a.2) := by
    refine mul_left_cancel₀ hne ?_
    have h : foot a b src * dot (b - a) (b - a) = dot (b - a) (src - a) :=
      div_mul_cancel₀ _ (dot_self_pos hab).ne'
    simp only [dot, Prod.fst_sub, Prod.snd_sub] at h
    linear_combination
      -h - (foot a b src * (k * (a.1 - b.1) + (a.2 - b.2)) + (src.2 - a.2)) * hslope
  refine Prod.ext ?_ ?_
  · simp only [footPoint, along]
    rw [div_eq_iff hpos]
    linear_combination -hfoot
  · simp only [footPoint, along]
    rw [div_eq_iff hpos]
    linear_combination -k * hfoot - foot a b src * (k * k + 1) * hslope

/-! ## the result -/

namespace Metric

variable (metric : Metric K)

theorem distance_le_iff {p q q' : K × K} :
    metric.distance p q ≤ metric.distance p q' ↔ dot (p - q) (p - q) ≤ dot (p - q') (p - q') :=
  metric.strictMono.le_iff_le (dot_self_nonneg _) (dot_self_nonneg _)

theorem distance_nonneg (p q : K × K) : 0 ≤ metric.distance p q :=
  metric.zero_le.trans
    ((metric.strictMono.le_iff_le Set.self_mem_Ici (dot_self_nonneg _)).mpr (dot_self_nonneg _))

/-- Of two points of a line the one nearer to the foot is nearer. -/
theorem distance_along_le_iff {a b : K × K} (hab : b - a ≠ 0) (p : K × K) (t t' : K) :
    metric.distance p (along a b t) ≤ metric.distance p (along a b t') ↔
      |t - foot a b p| ≤ |t' - foot a b p| :=
  metric.distance_le_iff.trans (dot_sub_along_le_iff hab p t t')

/-- A point of a link is nearest when no other position is nearer to the foot. -/
theorem nearest_along_iff {link : Link K} (hab : link.node2 - link.node1 ≠ 0) (src : K × K) {t : K}
    (ht : 0 ≤ t) (ht' : t ≤ 1) :
    Nearest metric link src (along link.node1 link.node2 t,
        metric.distance src (along link.node1 link.node2 t)) ↔
      ∀ t', 0 ≤ t' → t' ≤ 1 →
        |t - foot link.node1 link.node2 src| ≤ |t' - foot link.node1 link.node2 src| := by
  constructor
  · intro h t' h₀ h₁
    exact (metric.distance_along_le_iff hab src t t').mp
      (h.least _ (mem_segment_iff_along.mpr ⟨t', h₀, h₁, rfl⟩))
  · intro h
    refine ⟨mem_segment_iff_along.mpr ⟨t, ht, ht', rfl⟩, rfl, fun z hz => ?_⟩
    obtain ⟨t', h₀, h₁, rfl⟩ := mem_segment_iff_along.mp hz
    exact (metric.distance_along_le_iff hab src t t').mpr (h t' h₀ h₁)

/-- **The result of `point_to_link`** by the position of the foot. -/
theorem pointToLink_eq {link : Link K} (hlon : link.node1.1 ≠ link.node2.1) (src : K × K) :
    ∃ t, 0 ≤ t ∧ t ≤ 1 ∧
      pointToLink metric link src = some (along link.node1 link.node2 t,
        metric.distance src (along link.node1 link.node2 t)) ∧
      if pointInLink link (along link.node1 link.node2 (foot link.node1 link.node2 src)) then
        t = foot link.node1 link.node2 src
      else (t = 0 ∨ t = 1) ∧ ∀ t', t' = 0 ∨ t' = 1 →
        |t - foot link.node1 link.node2 src| ≤ |t' - foot link.node1 link.node2 src| := by
  have hne : link.node1.1 - link.node2.1 ≠ 0 := sub_ne_zero.mpr hlon
  have hab : link.node2 - link.node1 ≠ 0 := fun h => hlon (by
    rw [sub_eq_zero.mp h])
  have hzero : along link.node1 link.node2 0 = link.node1 := by simp [along]
  have hone : along link.node1 link.node2 1 = link.node2 := by simp [along]
  unfold pointToLink
  rw [if_neg hne]
  simp only [footPoint_eq hlon]
  have hcmp := metric.distance_along_le_iff hab src
  cases hin : pointInLink link
      (along link.node1 link.node2 (foot link.node1 link.node2 src)) with
  | true =>
      obtain ⟨ht, ht'⟩ := (pointInLink_along hlon _).1 hin
      exact ⟨_, ht, ht', if_pos rfl, rfl⟩
  | false =>
      rw [if_neg Bool.false_ne_true]
      by_cases hlt : metric.distance src link.node1 < metric.distance src link.node2
      · refine ⟨0, le_rfl, zero_le_one, ?_, .inl rfl, ?_⟩
        · rw [if_pos hlt, hzero]
        · rintro t' (rfl | rfl)
          · exact le_rfl
          · rw [← hcmp, hzero, hone]
            exact hlt.le
      · refine ⟨1, zero_le_one, le_rfl, ?_, .inr rfl, ?_⟩
        · rw [if_neg hlt, hone]
        · rintro t' (rfl | rfl)
          · rw [← hcmp, hzero, hone]
            exact not_lt.mp hlt
          · exact le_rfl

end Metric

/-- The foot is outside, or at an end. -/
theorem foot_outside_iff {link : Link K} {src : K × K} (hlon : link.node1.1 ≠ link.node2.1)
    (hlat : link.node1.2 = link.node2.2) :
    (foot link.node1 link.node2 src ≤ 0 ∨ 1 ≤ foot link.node1 link.node2 src) ↔
      src.1 ≤ min link.node1.1 link.node2.1 ∨ max link.node1.1 link.node2.1 ≤ src.1 := by
  have hne : link.node2.1 - link.node1.1 ≠ 0 := sub_ne_zero.mpr hlon.symm
  have hfoot : foot link.node1 link.node2 src =
      (src.1 - link.node1.1) / (link.node2.1 - link.node1.1) := by
    simp only [foot, dot, Prod.fst_sub, Prod.snd_sub, hlat, sub_self, zero_mul, add_zero]
    exact mul_div_mul_left _ _ hne
  rw [hfoot]
  rcases lt_or_gt_of_ne hlon with h | h
  · have hpos := sub_pos.mpr h
    rw [min_eq_left h.le, max_eq_right h.le, div_le_iff₀ hpos, le_div_iff₀ hpos, zero_mul, one_mul,
      sub_nonpos, sub_le_sub_iff_right]
  · have hneg := sub_neg.mpr h
    rw [min_eq_right h.le, max_eq_left h.le, div_le_iff_of_neg hneg, le_div_iff_of_neg hneg,
      zero_mul, one_mul, sub_nonneg, sub_le_sub_iff_right, or_comm]

/-- The nearer end is nearest of all positions exactly for a foot that is not between the ends. -/
theorem nearer_end_iff {t f : K} (ht : t = 0 ∨ t = 1)
    (hends : ∀ t', t' = 0 ∨ t' = 1 → |t - f| ≤ |t' - f|) :
    (∀ t', 0 ≤ t' → t' ≤ 1 → |t - f| ≤ |t' - f|) ↔ f ≤ 0 ∨ 1 ≤ f := by
  constructor
  · intro h
    by_contra hout
    rw [not_or, not_le, not_le] at hout
    have hle := h f hout.1.le hout.2.le
    rw [sub_self, abs_zero, abs_nonpos_iff, sub_eq_zero] at hle
    rcases ht with rfl | rfl
    · exact absurd hle hout.1.ne
    · exact absurd hle hout.2.ne'
  · rintro (hf | hf) t' h₀ h₁
    · refine (hends 0 (.inl rfl)).trans ?_
      rw [abs_of_nonneg (sub_nonneg.mpr hf), abs_of_nonneg (sub_nonneg.mpr (hf.trans h₀))]
      exact sub_le_sub_right h₀ f
    · refine (hends 1 (.inr rfl)).trans ?_
      rw [abs_of_nonpos (sub_nonpos.mpr hf), abs_of_nonpos (sub_nonpos.mpr (h₁.trans hf))]
      exact neg_le_neg (sub_le_sub_right h₁ f)

/-- **The nearest point of a link** is found exactly where it is measurable. -/
theorem nearest_iff (metric : Metric K) (link : Link K) (src : K × K) :
    (∃ r, pointToLink metric link src = some r ∧ Nearest metric link src r) ↔
      Measurable link src := by
  unfold Measurable
  by_cases hlon : link.node1.1 = link.node2.1
  · refine iff_of_false ?_ fun h => h.1 hlon
    rintro ⟨r, hr, -⟩
    rw [pointToLink, if_pos (sub_eq_zero.mpr hlon)] at hr
    cases hr
  have hab : link.node2 - link.node1 ≠ 0 := fun h => hlon (by
    rw [sub_eq_zero.mp h])
  obtain ⟨t, ht, ht', hrun, hcases⟩ := metric.pointToLink_eq hlon src
  generalize hfoot : foot link.node1 link.node2 src = f at hcases
  have hnearest := metric.nearest_along_iff hab src ht ht'
  rw [hfoot] at hnearest
  rw [hrun]
  simp only [Option.some.injEq, exists_eq_left', hnearest, ne_eq, hlon, not_false_eq_true, true_and]
  by_cases hlat : link.node1.2 = link.node2.2
  · -- the foot of a link of constant latitude is never taken
    rw [(pointInLink_along hlon f).2.2 hlat, if_neg Bool.false_ne_true] at hcases
    rw [nearer_end_iff hcases.1 hcases.2, ← hfoot, foot_outside_iff hlon hlat]
    simp only [hlat, not_true_eq_false, false_or]
  · refine iff_of_true ?_ (.inl hlat)
    split_ifs at hcases with hin
    · intro t' _ _
      rw [hcases, sub_self, abs_zero]
      exact abs_nonneg _
    · refine (nearer_end_iff hcases.1 hcases.2).mpr ?_
      by_contra hout
      rw [not_or, not_le, not_le] at hout
      exact hin ((pointInLink_along hlon f).2.1 hlat hout.1 hout.2)

end V2I.Sdmap
