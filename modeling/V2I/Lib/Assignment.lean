import Mathlib.Algebra.Order.BigOperators.Group.Finset

/-!
# V2I.Lib.Assignment

One-to-one assignments between two finite types and their linear-programming dual.

A set of pairs is `OneToOne` when no two of its pairs share a row or a column.  Potentials
on the rows and columns that are non-negative and dominate every weight bound the weight
of every assignment (`sum_le_of_dominated`), and an assignment on which they are tight and
outside of which they vanish attains the bound (`sum_eq_of_tight`): so it is a maximum
(`isMax_of_tight`).  Nothing here refers to how the potentials are found.
-/

namespace V2I.Assignment

variable {α β K : Type*}

/-- No two pairs of the set share a row or a column. -/
def OneToOne (A : Finset (α × β)) : Prop :=
  ∀ p ∈ A, ∀ q ∈ A, p.1 = q.1 ∨ p.2 = q.2 → p = q

/-- The total weight of a set of pairs. -/
def weight [AddCommMonoid K] (w : α → β → K) (A : Finset (α × β)) : K :=
  ∑ p ∈ A, w p.1 p.2

theorem OneToOne.injOn_fst {A : Finset (α × β)} (h : OneToOne A) :
    Set.InjOn Prod.fst (A : Set (α × β)) :=
  fun p hp q hq hpq => h p hp q hq (Or.inl hpq)

theorem OneToOne.injOn_snd {A : Finset (α × β)} (h : OneToOne A) :
    Set.InjOn Prod.snd (A : Set (α × β)) :=
  fun p hp q hq hpq => h p hp q hq (Or.inr hpq)

section Dual

variable [DecidableEq α] [DecidableEq β] [AddCommMonoid K]
variable {w : α → β → K} {u : α → K} {v : β → K} {A : Finset (α × β)}

/-- The potentials summed along an assignment are potentials summed over its rows and over
its columns. -/
theorem sum_potentials (hA : OneToOne A) :
    ∑ p ∈ A, (u p.1 + v p.2) = ∑ i ∈ A.image Prod.fst, u i + ∑ j ∈ A.image Prod.snd, v j := by
  rw [Finset.sum_add_distrib, Finset.sum_image hA.injOn_fst, Finset.sum_image hA.injOn_snd]

variable [Fintype α] [Fintype β]

/-- **Complementary slackness**: an assignment on which the potentials are tight, and
outside of which they are zero, attains the bound. -/
theorem sum_eq_of_tight (hA : OneToOne A) (htight : ∀ p ∈ A, w p.1 p.2 = u p.1 + v p.2)
    (hu : ∀ i, i ∉ A.image Prod.fst → u i = 0) (hv : ∀ j, j ∉ A.image Prod.snd → v j = 0) :
    weight w A = ∑ i, u i + ∑ j, v j := by
  have hrows : ∑ i ∈ A.image Prod.fst, u i = ∑ i, u i :=
    Finset.sum_subset (Finset.subset_univ _) fun i _ hi => hu i hi
  have hcols : ∑ j ∈ A.image Prod.snd, v j = ∑ j, v j :=
    Finset.sum_subset (Finset.subset_univ _) fun j _ hj => hv j hj
  rw [weight, Finset.sum_congr rfl htight, sum_potentials hA, hrows, hcols]

variable [PartialOrder K] [IsOrderedAddMonoid K]

/-- **Weak duality**: non-negative potentials that dominate the weights bound every
one-to-one assignment. -/
theorem sum_le_of_dominated (hA : OneToOne A) (hu : ∀ i, 0 ≤ u i) (hv : ∀ j, 0 ≤ v j)
    (hw : ∀ i j, w i j ≤ u i + v j) : weight w A ≤ ∑ i, u i + ∑ j, v j := by
  calc weight w A ≤ ∑ p ∈ A, (u p.1 + v p.2) := Finset.sum_le_sum fun p _ => hw p.1 p.2
    _ = ∑ i ∈ A.image Prod.fst, u i + ∑ j ∈ A.image Prod.snd, v j := sum_potentials hA
    _ ≤ ∑ i, u i + ∑ j, v j := by
        apply add_le_add
        · exact Finset.sum_le_sum_of_subset_of_nonneg (Finset.subset_univ _) fun i _ _ => hu i
        · exact Finset.sum_le_sum_of_subset_of_nonneg (Finset.subset_univ _) fun j _ _ => hv j

/-- Tight potentials certify a maximum-weight assignment. -/
theorem isMax_of_tight (hA : OneToOne A) (hu : ∀ i, 0 ≤ u i) (hv : ∀ j, 0 ≤ v j)
    (hw : ∀ i j, w i j ≤ u i + v j) (htight : ∀ p ∈ A, w p.1 p.2 = u p.1 + v p.2)
    (hu0 : ∀ i, i ∉ A.image Prod.fst → u i = 0) (hv0 : ∀ j, j ∉ A.image Prod.snd → v j = 0)
    (B : Finset (α × β)) (hB : OneToOne B) : weight w B ≤ weight w A := by
  rw [sum_eq_of_tight hA htight hu0 hv0]
  exact sum_le_of_dominated hB hu hv hw

end Dual

end V2I.Assignment
