import V2I.Lib.Plane
import V2I.MapCore.Maputils

/-!
# V2I.MapCore.Polygons

The polygons of `maputils.cpp` over any ordered field with `EPS` 0.
-/

namespace V2I.Polygons

open Plane Cyclic

variable {K : Type*} [Field K] [LinearOrder K]

/-! ## Segments -/

/-- A point as a pair of coordinates. -/
def toProd (p : Point K) : K × K := (p.x, p.y)

variable [IsStrictOrderedRing K]

/-- With `EPS` 0 the numbers compared are told apart. -/
theorem dblcmp_zero (s : K) : dblcmp 0 s 0 = if s = 0 then 0 else if 0 < s then 1 else -1 := by
  simp only [dblcmp, sub_zero, abs_nonpos_iff]

theorem dblcmp_eq_zero_iff {s : K} : dblcmp 0 s 0 = 0 ↔ s = 0 := by
  rw [dblcmp_zero]
  split_ifs with h₁ h₂
  · exact iff_of_true rfl h₁
  · exact iff_of_false (by decide) h₁
  · exact iff_of_false (by decide) h₁

theorem dblcmp_le_zero_iff {s : K} : dblcmp 0 s 0 ≤ 0 ↔ s ≤ 0 := by
  rw [dblcmp_zero]
  split_ifs with h₁ h₂
  · exact iff_of_true (by decide) h₁.le
  · exact iff_of_false (by decide) (not_le.mpr h₂)
  · exact iff_of_true (by decide) (not_lt.mp h₂)

theorem dblcmp_cases (s : K) : s < 0 ∧ dblcmp 0 s 0 = -1 ∨ s = 0 ∧ dblcmp 0 s 0 = 0 ∨
    0 < s ∧ dblcmp 0 s 0 = 1 := by
  rw [dblcmp_zero]
  rcases lt_trichotomy s 0 with hs | hs | hs
  · exact .inl ⟨hs, by rw [if_neg hs.ne, if_neg hs.not_gt]⟩
  · exact .inr (.inl ⟨hs, if_pos hs⟩)
  · exact .inr (.inr ⟨hs, by rw [if_neg hs.ne', if_pos hs]⟩)

/-- Only the bits of 1 and -1 give -2. -/
theorem dblcmp_xor_iff {s t : K} : dblcmp 0 s 0 ^^^ dblcmp 0 t 0 = -2 ↔ s * t < 0 := by
  rw [mul_neg_iff]
  rcases dblcmp_cases s with ⟨hs, hcmp⟩ | ⟨hs, hcmp⟩ | ⟨hs, hcmp⟩ <;>
    rcases dblcmp_cases t with ⟨ht, hcmp'⟩ | ⟨ht, hcmp'⟩ | ⟨ht, hcmp'⟩ <;>
    rw [hcmp, hcmp']
  case inl.inr.inr | inr.inr.inl => exact iff_of_true (by decide) (by tauto)
  all_goals
    refine iff_of_false (by decide) ?_
    rintro (⟨_, _⟩ | ⟨_, _⟩) <;> linarith

variable (p a b c d : Point K)

theorem pointOnLine_iff :
    dblcmp 0 (abCrossAc a b c) 0 = 0 ∧ pointOnLine 0 c a b ≤ 0 ↔
      toProd c ∈ segment K (toProd a) (toProd b) := by
  rw [mem_segment_iff, dblcmp_eq_zero_iff, pointOnLine, dblcmp_le_zero_iff]
  rfl

theorem crosses_iff :
    (dblcmp 0 (abCrossAc a b c) 0 ^^^ dblcmp 0 (abCrossAc a b d) 0 = -2 ∧
      dblcmp 0 (abCrossAc c d a) 0 ^^^ dblcmp 0 (abCrossAc c d b) 0 = -2) ↔
      Crosses (toProd a) (toProd b) (toProd c) (toProd d) := by
  rw [dblcmp_xor_iff, dblcmp_xor_iff]
  rfl

/-- The point of two segments. -/
def Common (q : K × K) : Prop :=
  q ∈ segment K (toProd a) (toProd b) ∧ q ∈ segment K (toProd c) (toProd d)

/-- **`get_cross_point`** with `EPS` 0 finds a common point of two segments when there is one. -/
theorem getCrossPoint_spec :
    (0 ≤ (getCrossPoint 0 p a b c d).1 ↔ ∃ q, Common a b c d q) ∧
      (0 ≤ (getCrossPoint 0 p a b c d).1 →
        Common a b c d (toProd (getCrossPoint 0 p a b c d).2)) := by
  have hends := fun p q : Point K => (⟨left_mem_segment K (toProd p) (toProd q),
    right_mem_segment K (toProd p) (toProd q)⟩ : _ ∧ _)
  have hfound : 0 ≤ (getCrossPoint 0 p a b c d).1 →
      Common a b c d (toProd (getCrossPoint 0 p a b c d).2) := by
    simp only [getCrossPoint]
    split_ifs with hcross hc hd ha hb
    · exact fun _ => ((crosses_iff a b c d).mp hcross).mem rfl rfl
    · exact fun _ => ⟨(pointOnLine_iff a b c).mp hc, (hends c d).1⟩
    · exact fun _ => ⟨(pointOnLine_iff a b d).mp hd, (hends c d).2⟩
    · exact fun _ => ⟨(hends a b).1, (pointOnLine_iff c d a).mp ha⟩
    · exact fun _ => ⟨(hends a b).2, (pointOnLine_iff c d b).mp hb⟩
    · exact fun h => absurd h (by decide : ¬ (0 : ℤ) ≤ -1)
  refine ⟨⟨fun h => ⟨_, hfound h⟩, ?_⟩, hfound⟩
  rintro ⟨q, hab, hcd⟩
  simp only [getCrossPoint]
  split_ifs with hcross hc hd ha hb
  · exact Int.one_nonneg
  · exact le_rfl
  · exact le_rfl
  · exact le_rfl
  · exact le_rfl
  · rcases meets_cases hab hcd with h | h | h | h | h
    · exact absurd ((crosses_iff a b c d).mpr h) hcross
    · exact absurd ((pointOnLine_iff a b c).mpr h) hc
    · exact absurd ((pointOnLine_iff a b d).mpr h) hd
    · exact absurd ((pointOnLine_iff c d a).mpr h) ha
    · exact absurd ((pointOnLine_iff c d b).mpr h) hb

end V2I.Polygons
