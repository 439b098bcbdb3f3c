import Mathlib.Analysis.Convex.Hull
import Mathlib.Tactic.Linarith

/-!
# V2I.Lib.Plane

Points and segments of the plane over an ordered field, by cross products and dot products.
-/

namespace V2I.Plane

variable {K : Type*} [Field K]

def cross (u v : K × K) : K := u.1 * v.2 - v.1 * u.2

def dot (u v : K × K) : K := u.1 * v.1 + u.2 * v.2

/-- Twice the area of the triangle, positive where it turns left. -/
def orient (a b c : K × K) : K := cross (b - a) (c - a)

theorem orient_rotate (a b c : K × K) : orient b c a = orient a b c := by
  simp only [orient, cross, Prod.fst_sub, Prod.snd_sub]
  ring

theorem orient_swap (a b c : K × K) : orient b a c = -orient a b c := by
  simp only [orient, cross, Prod.fst_sub, Prod.snd_sub]
  ring

theorem orient_swap_right (a b c : K × K) : orient a c b = -orient a b c := by
  simp only [orient, cross, Prod.fst_sub, Prod.snd_sub]
  ring

theorem orient_eq_cross (a b c : K × K) : orient a b c = cross (a - c) (b - c) := by
  simp only [orient, cross, Prod.fst_sub, Prod.snd_sub]
  ring

@[simp] theorem orient_self_left (a b : K × K) : orient a a b = 0 := by simp [orient, cross]

@[simp] theorem orient_self_right (a b : K × K) : orient a b b = 0 := by
  simp only [orient, cross, Prod.fst_sub, Prod.snd_sub]
  ring

@[simp] theorem orient_self (a b : K × K) : orient a b a = 0 := by simp [orient, cross]

/-- The products of two vectors by those with a third one. -/
theorem dot_mul_cross (u v w : K × K) :
    dot u u * cross v w = dot u v * cross u w - cross u v * dot u w := by
  simp only [dot, cross]
  ring

theorem dot_mul_dot (u v w : K × K) :
    dot u u * dot v w = dot u v * dot u w + cross u v * cross u w := by
  simp only [dot, cross]
  ring

variable [LinearOrder K] [IsStrictOrderedRing K] {a b c p q u z : K × K}

theorem dot_self_nonneg (u : K × K) : 0 ≤ dot u u :=
  add_nonneg (mul_self_nonneg u.1) (mul_self_nonneg u.2)

theorem dot_self_eq_zero : dot u u = 0 ↔ u = 0 := by
  rw [dot, add_eq_zero_iff_of_nonneg (mul_self_nonneg _) (mul_self_nonneg _), mul_self_eq_zero,
    mul_self_eq_zero, Prod.ext_iff]
  rfl

theorem dot_self_pos (h : u ≠ 0) : 0 < dot u u :=
  (dot_self_nonneg u).lt_of_ne fun h' => h (dot_self_eq_zero.mp h'.symm)

/-! ## Segments -/

theorem mem_segment_of {t : K} (ht : 0 ≤ t) (ht' : t ≤ 1)
    (hx : z.1 = a.1 + t * (b.1 - a.1)) (hy : z.2 = a.2 + t * (b.2 - a.2)) : z ∈ segment K a b := by
  refine ⟨1 - t, t, by linarith, ht, by ring, Prod.ext ?_ ?_⟩
  · simp only [Prod.fst_add, Prod.smul_fst, smul_eq_mul, hx]
    ring
  · simp only [Prod.snd_add, Prod.smul_snd, smul_eq_mul, hy]
    ring

theorem exists_of_mem_segment (h : z ∈ segment K a b) : ∃ t, 0 ≤ t ∧ t ≤ 1 ∧
    z.1 = a.1 + t * (b.1 - a.1) ∧ z.2 = a.2 + t * (b.2 - a.2) := by
  obtain ⟨s, t, hs, ht, hst, rfl⟩ := h
  obtain rfl : s = 1 - t := by linarith
  refine ⟨t, ht, by linarith, ?_, ?_⟩
  · simp only [Prod.fst_add, Prod.smul_fst, smul_eq_mul]
    ring
  · simp only [Prod.snd_add, Prod.smul_snd, smul_eq_mul]
    ring

/-- A point of the line of a segment, by its position along it. -/
theorem mem_segment_of_dot (hab : b - a ≠ 0) (horient : orient a b z = 0)
    (hz : 0 ≤ dot (b - a) (z - a)) (hz' : dot (b - a) (z - a) ≤ dot (b - a) (b - a)) :
    z ∈ segment K a b := by
  have hpos := dot_self_pos hab
  refine mem_segment_of (t := dot (b - a) (z - a) / dot (b - a) (b - a))
    (div_nonneg hz hpos.le) ((div_le_one hpos).mpr hz') ?_ ?_
  · field_simp
    simp only [orient, cross, dot, Prod.fst_sub, Prod.snd_sub] at horient ⊢
    linear_combination (a.2 - b.2) * horient
  · field_simp
    simp only [orient, cross, dot, Prod.fst_sub, Prod.snd_sub] at horient ⊢
    linear_combination (b.1 - a.1) * horient

theorem dot_of_mem_segment (h : z ∈ segment K a b) :
    0 ≤ dot (b - a) (z - a) ∧ dot (b - a) (z - a) ≤ dot (b - a) (b - a) := by
  obtain ⟨t, ht, ht', hx, hy⟩ := exists_of_mem_segment h
  have hdot : dot (b - a) (z - a) = t * dot (b - a) (b - a) := by
    simp only [dot, Prod.fst_sub, Prod.snd_sub, hx, hy]
    ring
  rw [hdot]
  exact ⟨mul_nonneg ht (dot_self_nonneg _), mul_le_of_le_one_left (dot_self_nonneg _) ht'⟩

/-- **A point is on a segment** when it is on its line and does not see its ends in directions
less than a right angle apart. -/
theorem mem_segment_iff : z ∈ segment K a b ↔ orient a b z = 0 ∧ dot (a - z) (b - z) ≤ 0 := by
  constructor
  · intro h
    obtain ⟨t, ht, ht', hx, hy⟩ := exists_of_mem_segment h
    have hnonneg : 0 ≤ t * (1 - t) * dot (b - a) (b - a) :=
      mul_nonneg (mul_nonneg ht (by linarith)) (dot_self_nonneg _)
    simp only [orient, cross, dot, Prod.fst_sub, Prod.snd_sub, hx, hy] at hnonneg ⊢
    exact ⟨by ring, by linarith⟩
  · rintro ⟨horient, hdot⟩
    by_cases hab : b - a = 0
    · -- the ends coincide
      obtain rfl : b = a := sub_eq_zero.mp hab
      have hz : b - z = 0 := dot_self_eq_zero.mp (le_antisymm hdot (dot_self_nonneg _))
      rw [sub_eq_zero.mp hz]
      exact left_mem_segment K z z
    · have hpos := dot_self_pos hab
      -- the position along the segment, times its squared length
      have hprod : 0 ≤ dot (b - a) (z - a) * (dot (b - a) (b - a) - dot (b - a) (z - a)) := by
        have h := dot_mul_dot (b - a) (a - z) (b - z)
        have hcross : cross (b - a) (a - z) = 0 := by
          simp only [orient, cross, Prod.fst_sub, Prod.snd_sub] at horient ⊢
          linarith
        rw [hcross, zero_mul, add_zero] at h
        have hle : dot (b - a) (a - z) * dot (b - a) (b - z) ≤ 0 :=
          h ▸ mul_nonpos_of_nonneg_of_nonpos hpos.le hdot
        have h₁ : dot (b - a) (a - z) = -dot (b - a) (z - a) := by
          simp only [dot, Prod.fst_sub, Prod.snd_sub]
          ring
        have h₂ : dot (b - a) (b - z) = dot (b - a) (b - a) - dot (b - a) (z - a) := by
          simp only [dot, Prod.fst_sub, Prod.snd_sub]
          ring
        rw [h₁, h₂] at hle
        linarith
      have hbetween : 0 ≤ dot (b - a) (z - a) ∧ dot (b - a) (z - a) ≤ dot (b - a) (b - a) := by
        rcases mul_nonneg_iff.mp hprod with h | h
        · exact ⟨h.1, by linarith⟩
        · exact ⟨by linarith, by linarith⟩
      exact mem_segment_of_dot hab horient hbetween.1 hbetween.2

/-! ## The nearest point -/

/-- The point at a position along a segment, from 0 to 1. -/
def along (a b : K × K) (t : K) : K × K := (a.1 + t * (b.1 - a.1), a.2 + t * (b.2 - a.2))

/-- The position of the foot of a point on the line of a segment. -/
def foot (a b p : K × K) : K := dot (b - a) (p - a) / dot (b - a) (b - a)

theorem mem_segment_iff_along : z ∈ segment K a b ↔ ∃ t, 0 ≤ t ∧ t ≤ 1 ∧ z = along a b t := by
  constructor
  · intro h
    obtain ⟨t, ht, ht', hx, hy⟩ := exists_of_mem_segment h
    exact ⟨t, ht, ht', Prod.ext hx hy⟩
  · rintro ⟨t, ht, ht', rfl⟩
    exact mem_segment_of ht ht' rfl rfl

/-- The squared distance to a point of the line, by its position. -/
theorem dot_sub_along (hab : b - a ≠ 0) (p : K × K) (t : K) :
    dot (p - along a b t) (p - along a b t) =
      dot (p - along a b (foot a b p)) (p - along a b (foot a b p)) +
        (t - foot a b p) ^ 2 * dot (b - a) (b - a) := by
  have hfoot : foot a b p * dot (b - a) (b - a) = dot (b - a) (p - a) :=
    div_mul_cancel₀ _ (dot_self_pos hab).ne'
  simp only [dot, along, Prod.fst_sub, Prod.snd_sub] at hfoot ⊢
  linear_combination (2 * t - 2 * foot a b p) * hfoot

/-- **Of two points of the line** the one nearer to the foot is nearer. -/
theorem dot_sub_along_le_iff (hab : b - a ≠ 0) (p : K × K) (t t' : K) :
    dot (p - along a b t) (p - along a b t) ≤ dot (p - along a b t') (p - along a b t') ↔
      |t - foot a b p| ≤ |t' - foot a b p| := by
  rw [dot_sub_along hab p t, dot_sub_along hab p t', add_le_add_iff_left,
    mul_le_mul_iff_left₀ (dot_self_pos hab), sq_le_sq]

/-! ## Two segments -/

/-- Each of two segments has its ends on different sides of the other one. -/
def Crosses (a b c d : K × K) : Prop :=
  orient a b c * orient a b d < 0 ∧ orient c d a * orient c d b < 0

variable {d : K × K}

/-- Ends on different sides, with the point in which their segment meets the line. -/
theorem div_mem_of_mul_neg {s t : K} (h : s * t < 0) :
    t - s ≠ 0 ∧ 0 ≤ -s / (t - s) ∧ -s / (t - s) ≤ 1 := by
  rcases mul_neg_iff.mp h with ⟨hs, ht⟩ | ⟨hs, ht⟩
  · have hneg : t - s < 0 := by linarith
    exact ⟨hneg.ne, div_nonneg_of_nonpos (by linarith) hneg.le,
      (div_le_one_of_neg hneg).mpr (by linarith)⟩
  · have hpos : 0 < t - s := by linarith
    exact ⟨hpos.ne', div_nonneg (by linarith) hpos.le, (div_le_one hpos).mpr (by linarith)⟩

/-- **The point of a crossing** is on both segments. -/
theorem Crosses.mem (h : Crosses a b c d)
    (hx : z.1 = (c.1 * orient a b d - d.1 * orient a b c) / (orient a b d - orient a b c))
    (hy : z.2 = (c.2 * orient a b d - d.2 * orient a b c) / (orient a b d - orient a b c)) :
    z ∈ segment K a b ∧ z ∈ segment K c d := by
  obtain ⟨hne, ht, ht'⟩ := div_mem_of_mul_neg h.1
  obtain ⟨hne', hu, hu'⟩ := div_mem_of_mul_neg h.2
  have hsum : orient c d b - orient c d a = -(orient a b d - orient a b c) := by
    simp only [orient, cross, Prod.fst_sub, Prod.snd_sub]
    ring
  constructor
  · refine mem_segment_of hu hu' ?_ ?_
    · rw [hx, hsum, neg_div_neg_eq]
      field_simp
      simp only [orient, cross, Prod.fst_sub, Prod.snd_sub]
      ring
    · rw [hy, hsum, neg_div_neg_eq]
      field_simp
      simp only [orient, cross, Prod.fst_sub, Prod.snd_sub]
      ring
  · refine mem_segment_of ht ht' ?_ ?_
    · rw [hx]
      field_simp
      ring
    · rw [hy]
      field_simp
      ring

/-- The heights of two ends above a line that their segment meets. -/
theorem ends_of_meets (hq : orient a b z = 0) (hz : z ∈ segment K c d) :
    z = c ∨ z = d ∨ orient a b c * orient a b d < 0 ∨ orient a b c = 0 ∧ orient a b d = 0 := by
  obtain ⟨t, ht, ht', hx, hy⟩ := exists_of_mem_segment hz
  have hline : (1 - t) * orient a b c + t * orient a b d = 0 := by
    rw [← hq]
    simp only [orient, cross, Prod.fst_sub, Prod.snd_sub, hx, hy]
    ring
  rcases ht.eq_or_lt with rfl | ht
  · exact .inl (Prod.ext (by simpa using hx) (by simpa using hy))
  rcases ht'.eq_or_lt with rfl | ht'
  · exact .inr (.inl (Prod.ext (by simpa using hx) (by simpa using hy)))
  have hrest : 0 < 1 - t := sub_pos.mpr ht'
  right; right
  rcases lt_trichotomy (orient a b c) 0 with hc | hc | hc
  · have := mul_neg_of_pos_of_neg hrest hc
    have hd : 0 < orient a b d := pos_of_mul_pos_right (by linarith) ht.le
    exact .inl (mul_neg_of_neg_of_pos hc hd)
  · rw [hc, mul_zero, zero_add] at hline
    exact .inr ⟨hc, (mul_eq_zero.mp hline).resolve_left ht.ne'⟩
  · have := mul_pos hrest hc
    have hd : orient a b d < 0 := neg_of_mul_neg_right (by linarith) ht.le
    exact .inl (mul_neg_of_pos_of_neg hc hd)

/-- Two numbers outside an interval with a number in it between them, where the interval starts
at 0. -/
theorem mul_nonpos_of_between {r s t m : K} (ht : 0 ≤ t) (ht' : t ≤ 1) (hr : ¬ (0 ≤ r ∧ r ≤ m))
    (hs : ¬ (0 ≤ s ∧ s ≤ m)) (h₀ : 0 ≤ (1 - t) * r + t * s) (h₁ : (1 - t) * r + t * s ≤ m) :
    r * s ≤ 0 := by
  by_contra hpos
  rcases mul_pos_iff.mp (not_le.mp hpos) with ⟨hr₀, hs₀⟩ | ⟨hr₀, hs₀⟩
  · have hr₁ : m < r := not_le.mp fun h => hr ⟨hr₀.le, h⟩
    have hs₁ : m < s := not_le.mp fun h => hs ⟨hs₀.le, h⟩
    exact (convex_Ioi m hr₁ hs₁ (sub_nonneg.mpr ht') ht (by ring)).not_ge h₁
  · exact (convex_Iio 0 hr₀ hs₀ (sub_nonneg.mpr ht') ht (by ring)).not_ge h₀

/-- On one line: an end of one segment is on the other one. -/
theorem end_mem_of_collinear (hc : orient a b c = 0) (hd : orient a b d = 0)
    (hz : z ∈ segment K a b) (hz' : z ∈ segment K c d) :
    c ∈ segment K a b ∨ d ∈ segment K a b ∨ a ∈ segment K c d := by
  by_cases hab : b - a = 0
  · obtain rfl : b = a := sub_eq_zero.mp hab
    rw [segment_same, Set.mem_singleton_iff] at hz
    exact .inr (.inr (hz ▸ hz'))
  have hpos := dot_self_pos hab
  by_cases hcseg : c ∈ segment K a b
  · exact .inl hcseg
  by_cases hdseg : d ∈ segment K a b
  · exact .inr (.inl hdseg)
  have hcout : ¬ (0 ≤ dot (b - a) (c - a) ∧ dot (b - a) (c - a) ≤ dot (b - a) (b - a)) :=
    fun h => hcseg (mem_segment_of_dot hab hc h.1 h.2)
  have hdout : ¬ (0 ≤ dot (b - a) (d - a) ∧ dot (b - a) (d - a) ≤ dot (b - a) (b - a)) :=
    fun h => hdseg (mem_segment_of_dot hab hd h.1 h.2)
  obtain ⟨hz₀, hz₁⟩ := dot_of_mem_segment hz
  obtain ⟨t, ht, ht', hx, hy⟩ := exists_of_mem_segment hz'
  have hbetween : dot (b - a) (z - a) =
      (1 - t) * dot (b - a) (c - a) + t * dot (b - a) (d - a) := by
    simp only [dot, Prod.fst_sub, Prod.snd_sub, hx, hy]
    ring
  rw [hbetween] at hz₀ hz₁
  -- the ends lie on different sides of the segment
  have hprod := mul_nonpos_of_between ht ht' hcout hdout hz₀ hz₁
  have hdot := dot_mul_dot (b - a) (c - a) (d - a)
  have hcross := dot_mul_cross (b - a) (c - a) (d - a)
  rw [show cross (b - a) (c - a) = 0 from hc, zero_mul, add_zero] at hdot
  rw [show cross (b - a) (c - a) = 0 from hc, show cross (b - a) (d - a) = 0 from hd, zero_mul,
    mul_zero, sub_zero] at hcross
  refine .inr (.inr (mem_segment_iff.mpr ⟨?_, ?_⟩))
  · rw [orient_eq_cross]
    exact (mul_eq_zero.mp hcross).resolve_left hpos.ne'
  · rw [← hdot] at hprod
    exact nonpos_of_mul_nonpos_right hprod hpos

/-- **Two segments that meet** cross, or an end of one is on the other. -/
theorem meets_cases (hz : z ∈ segment K a b) (hz' : z ∈ segment K c d) : Crosses a b c d ∨
    c ∈ segment K a b ∨ d ∈ segment K a b ∨ a ∈ segment K c d ∨ b ∈ segment K c d := by
  rcases ends_of_meets (mem_segment_iff.mp hz).1 hz' with rfl | rfl | hcd | ⟨hc, hd⟩
  · exact .inr (.inl hz)
  · exact .inr (.inr (.inl hz))
  · rcases ends_of_meets (mem_segment_iff.mp hz').1 hz with rfl | rfl | hab | ⟨ha, hb⟩
    · exact .inr (.inr (.inr (.inl hz')))
    · exact .inr (.inr (.inr (.inr hz')))
    · exact .inl ⟨hcd, hab⟩
    · rcases end_mem_of_collinear ha hb hz' hz with h | h | h
      · exact .inr (.inr (.inr (.inl h)))
      · exact .inr (.inr (.inr (.inr h)))
      · exact .inr (.inl h)
  · rcases end_mem_of_collinear hc hd hz hz' with h | h | h
    · exact .inr (.inl h)
    · exact .inr (.inr (.inl h))
    · exact .inr (.inr (.inr (.inl h)))

/-! ## Convex hulls -/

/-- A function that is linear along segments. -/
def Affine (f : K × K → K) : Prop :=
  ∀ x y : K × K, ∀ r t : K, r + t = 1 → f (r • x + t • y) = r * f x + t * f y

theorem affine_cross (u z : K × K) : Affine fun w => cross u (w - z) := by
  intro x y r t h
  obtain rfl : r = 1 - t := by linarith
  simp only [cross, Prod.fst_sub, Prod.snd_sub, Prod.fst_add, Prod.snd_add, Prod.smul_fst,
    Prod.smul_snd, smul_eq_mul]
  ring

theorem affine_dot (u z : K × K) : Affine fun w => dot u (w - z) := by
  intro x y r t h
  obtain rfl : r = 1 - t := by linarith
  simp only [dot, Prod.fst_sub, Prod.snd_sub, Prod.fst_add, Prod.snd_add, Prod.smul_fst,
    Prod.smul_snd, smul_eq_mul]
  ring

theorem affine_orient (a b : K × K) : Affine (orient a b) := affine_cross (b - a) a

variable {f : K × K → K}

omit [LinearOrder K] [IsStrictOrderedRing K] in
theorem Affine.neg (hf : Affine f) : Affine fun w => -f w := by
  intro x y r t h
  simp only [hf x y r t h]
  ring

theorem Affine.convex_nonneg (hf : Affine f) : Convex K { w | 0 ≤ f w } := by
  intro x hx y hy r t hr ht h
  rw [Set.mem_ofPred_eq, hf x y r t h]
  exact add_nonneg (mul_nonneg hr hx) (mul_nonneg ht hy)

/-- A half plane that has the points of a set has their convex hull. -/
theorem Affine.nonneg_of_mem (hf : Affine f) {s : Set (K × K)} (hs : ∀ w ∈ s, 0 ≤ f w)
    (hz : z ∈ convexHull K s) : 0 ≤ f z :=
  convexHull_min (t := { w | 0 ≤ f w }) hs hf.convex_nonneg hz

/-- The points above a line, and half of the line. -/
theorem Affine.convex_above {g : K × K → K} (hf : Affine f) (hg : Affine g) :
    Convex K { w | 0 < f w ∨ f w = 0 ∧ 0 < g w } := by
  intro x hx y hy r t hr ht h
  rw [Set.mem_ofPred_eq, hf x y r t h, hg x y r t h]
  rcases hr.eq_or_lt with rfl | hr
  · obtain rfl : t = 1 := by linarith
    simpa using hy
  rcases ht.eq_or_lt with rfl | ht
  · obtain rfl : r = 1 := by linarith
    simpa using hx
  rcases hx with hx | ⟨hx, hgx⟩ <;> rcases hy with hy | ⟨hy, hgy⟩
  · exact .inl (add_pos (mul_pos hr hx) (mul_pos ht hy))
  · rw [hy, mul_zero, add_zero]
    exact .inl (mul_pos hr hx)
  · rw [hx, mul_zero, zero_add]
    exact .inl (mul_pos ht hy)
  · rw [hx, hy, mul_zero, mul_zero, add_zero]
    exact .inr ⟨rfl, add_pos (mul_pos hr hgx) (mul_pos ht hgy)⟩

/-- **Where a convex hull touches a line** in a point, one of the points it comes from is on the
line and not behind this one. -/
theorem exists_mem_le {g : K × K → K} (hf : Affine f) (hg : Affine g) {s : Set (K × K)}
    (hs : ∀ w ∈ s, 0 ≤ f w) (hz : z ∈ convexHull K s) (hfz : f z = 0) (hgz : g z = 0) :
    ∃ w ∈ s, f w = 0 ∧ g w ≤ 0 := by
  by_contra hnone
  push Not at hnone
  have habove : z ∈ { w | 0 < f w ∨ f w = 0 ∧ 0 < g w } := by
    refine convexHull_min (fun w hw => ?_) (hf.convex_above hg) hz
    rcases (hs w hw).eq_or_lt with h | h
    · exact .inr ⟨h.symm, hnone w hw h.symm⟩
    · exact .inl h
  rcases habove with h | ⟨-, h⟩
  · exact h.ne' hfz
  · exact h.ne' hgz

end V2I.Plane
