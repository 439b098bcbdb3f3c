import Mathlib.Data.List.Sort

/-!
# V2I.Lib.Qsort

The C library's `qsort`. The standard fixes the result up to the order of elements
that compare equal, so a program is verified against every function that returns a
sorted permutation: a `Qsort` carries such a function with the proof that it is one.
-/

namespace V2I

/-- A sorting function as the C standard describes `qsort`. -/
structure Qsort (α : Type*) where
  /-- Sort a list by a comparison function. -/
  sort : (α → α → Ordering) → List α → List α
  /-- No element is lost or made up. -/
  perm : ∀ cmp l, (sort cmp l).Perm l
  /-- For a consistent comparison the result is in order. -/
  sorted : ∀ cmp, Std.TransCmp cmp → ∀ l, (sort cmp l).Pairwise fun a b => (cmp a b).isLE

namespace Qsort

@[simp]
theorem length_sort (q : Qsort α) (cmp : α → α → Ordering) (l : List α) :
    (q.sort cmp l).length = l.length :=
  (q.perm cmp l).length_eq

/-- Insertion sort is one such function. -/
def insertion (α : Type*) : Qsort α where
  sort cmp l := l.insertionSort fun a b => (cmp a b).isLE
  perm cmp l := List.perm_insertionSort _ l
  sorted cmp h l := by
    have htotal : Std.Total fun a b => ((cmp a b).isLE : Prop) := ⟨fun a b => by
      have hswap : cmp b a = (cmp a b).swap := Std.OrientedCmp.eq_swap
      rw [hswap]
      cases cmp a b <;> simp⟩
    have htrans : IsTrans α fun a b => ((cmp a b).isLE : Prop) :=
      ⟨fun _ _ _ hab hbc => Std.TransCmp.isLE_trans hab hbc⟩
    exact List.pairwise_insertionSort _ l

/-- One that orders elements that compare equal by a second comparison function. -/
def breaking (tie : α → α → Ordering) [Std.TransCmp tie] : Qsort α where
  sort cmp l := (insertion α).sort (compareLex cmp tie) l
  perm cmp l := (insertion α).perm _ l
  sorted cmp h l := by
    refine ((insertion α).sorted (compareLex cmp tie) inferInstance l).imp ?_
    intro a b hle
    cases hcmp : cmp a b <;> simp_all [compareLex]

/-- Both comparison functions order the result of `breaking`. -/
theorem sorted_breaking (cmp tie : α → α → Ordering) [Std.TransCmp cmp] [Std.TransCmp tie]
    (l : List α) : ((breaking tie).sort cmp l).Pairwise fun a b => (compareLex cmp tie a b).isLE :=
  (insertion α).sorted (compareLex cmp tie) inferInstance l

/-! ## Sorting by a key -/

section

variable {K : Type*} [LinearOrder K] {key : α → K} {cmp : α → α → Ordering}

theorem isLE_of_key (hcmp : ∀ a b, cmp a b =
    if key b < key a then .gt else if key a < key b then .lt else .eq) {a b : α} :
    (cmp a b).isLE ↔ key a ≤ key b := by
  rw [hcmp]
  split
  · next h => simp [h]
  · next h => split <;> simp [not_lt.mp h]

/-- A comparison function that tells which of two keys is greater is consistent. -/
theorem transCmp_of_key (hcmp : ∀ a b, cmp a b =
    if key b < key a then .gt else if key a < key b then .lt else .eq) : Std.TransCmp cmp where
  eq_swap {a b} := by
    rw [hcmp, hcmp]
    rcases lt_trichotomy (key a) (key b) with h | h | h
    · simp [h, not_lt.mpr h.le]
    · simp [h]
    · simp [h, not_lt.mpr h.le]
  isLE_trans {a b c} hab hbc := by
    rw [isLE_of_key hcmp] at hab hbc ⊢
    exact hab.trans hbc

/-- **Sorting by a key** puts the keys in order. -/
theorem pairwise_sort (q : Qsort α) (hcmp : ∀ a b, cmp a b =
    if key b < key a then .gt else if key a < key b then .lt else .eq) (l : List α) :
    (q.sort cmp l).Pairwise fun a b => key a ≤ key b :=
  (q.sorted cmp (transCmp_of_key hcmp) l).imp (isLE_of_key hcmp).mp

end

end Qsort

end V2I
