import Mathlib.Order.Lattice
import Mathlib.Data.List.Basic

/-!
# V2I.Lib.Bisection

A binary search in a list that need not be sorted. Which places are probed on the way to a place
depends on the place alone; a value is found exactly when it stands at a place to which every value
probed on the way points (`bisect_iff`). In a sorted list that is every value (`bisect_iff_mem`).
-/

namespace V2I

open List

variable {α : Type*} [LinearOrder α]

/-- The binary search for `a` from `start` up to before `stop`. -/
def bisect (arr : List α) (a : α) (start stop : ℕ) : Bool :=
  if start < stop then
    let mid := (start + (stop - 1)) / 2
    match arr[mid]? with
    | none => false
    | some val =>
        if a = val then true
        else if val < a then bisect arr a (mid + 1) stop
        else bisect arr a start mid
  else false
termination_by stop - start

/-- The places probed before `p`. -/
def probes (p start stop : ℕ) : List ℕ :=
  if start < stop then
    let mid := (start + (stop - 1)) / 2
    if mid < p then mid :: probes p (mid + 1) stop
    else if p < mid then mid :: probes p start mid
    else []
  else []
termination_by stop - start

/-- The value at `mid` tells on which side of it `p` is. -/
def PointsTo (arr : List α) (p mid : ℕ) : Prop :=
  ∀ val a, arr[mid]? = some val → arr[p]? = some a → (mid < p → val < a) ∧ (p < mid → a < val)

/-- Every value probed before `p` points to it. -/
def Bisects (arr : List α) (p : ℕ) : Prop := ∀ mid ∈ probes p 0 arr.length, PointsTo arr p mid

variable {arr : List α} {a : α}

/-- The search within a range. -/
theorem bisect_range_iff {start stop : ℕ} (hstop : stop ≤ arr.length) :
    bisect arr a start stop ↔ ∃ p, start ≤ p ∧ p < stop ∧ arr[p]? = some a ∧
      ∀ mid ∈ probes p start stop, PointsTo arr p mid := by
  fun_induction bisect arr a start stop with
  | case1 start stop hlt mid hnone =>
    have hmid : mid < arr.length := by omega
    rw [getElem?_eq_getElem hmid] at hnone
    cases hnone
  | case2 start stop hlt mid hval =>
    refine iff_of_true rfl ⟨mid, by omega, by omega, hval, ?_⟩
    rw [probes, if_pos hlt, if_neg (Nat.lt_irrefl _), if_neg (Nat.lt_irrefl _)]
    simp
  | case3 start stop hlt mid val hval hne hless ih =>
    rw [ih hstop]
    constructor
    · rintro ⟨p, hp, hps, hpa, hprobes⟩
      refine ⟨p, by omega, hps, hpa, ?_⟩
      rw [probes, if_pos hlt, if_pos (by omega : mid < p), forall_mem_cons]
      refine ⟨fun val' a' hval' ha' => ?_, hprobes⟩
      rw [hval] at hval'
      rw [hpa] at ha'
      cases hval'
      cases ha'
      exact ⟨fun _ => hless, fun h => absurd h (by omega)⟩
    · rintro ⟨p, hp, hps, hpa, hprobes⟩
      rw [probes, if_pos hlt] at hprobes
      rcases lt_trichotomy mid p with h | h | h
      · rw [if_pos h, forall_mem_cons] at hprobes
        exact ⟨p, h, hps, hpa, hprobes.2⟩
      · rw [← h, hval] at hpa
        exact absurd (Option.some.inj hpa).symm hne
      · -- the search turns away from a place on the left
        rw [if_neg (by omega), if_pos h, forall_mem_cons] at hprobes
        exact absurd ((hprobes.1 val a hval hpa).2 h) (not_lt.mpr (le_of_lt hless))
  | case4 start stop hlt mid val hval hne hless ih =>
    have hgt : a < val := lt_of_le_of_ne (not_lt.mp hless) hne
    rw [ih (by omega)]
    constructor
    · rintro ⟨p, hp, hps, hpa, hprobes⟩
      refine ⟨p, hp, by omega, hpa, ?_⟩
      rw [probes, if_pos hlt, if_neg (by omega), if_pos hps, forall_mem_cons]
      refine ⟨fun val' a' hval' ha' => ?_, hprobes⟩
      rw [hval] at hval'
      rw [hpa] at ha'
      cases hval'
      cases ha'
      exact ⟨fun h => absurd h (by omega), fun _ => hgt⟩
    · rintro ⟨p, hp, hps, hpa, hprobes⟩
      rw [probes, if_pos hlt] at hprobes
      rcases lt_trichotomy mid p with h | h | h
      · rw [if_pos h, forall_mem_cons] at hprobes
        exact absurd ((hprobes.1 val a hval hpa).1 h) hless
      · rw [← h, hval] at hpa
        exact absurd (Option.some.inj hpa).symm hne
      · rw [if_neg (by omega), if_pos h, forall_mem_cons] at hprobes
        exact ⟨p, hp, h, hpa, hprobes.2⟩
  | case5 start stop hlt =>
    refine iff_of_false Bool.false_ne_true ?_
    rintro ⟨p, hp, hps, -⟩
    omega

/-- **A value is found** exactly when it stands at a place that the search can reach. -/
theorem bisect_iff : bisect arr a 0 arr.length ↔ ∃ p, arr[p]? = some a ∧ Bisects arr p := by
  rw [bisect_range_iff le_rfl]
  constructor
  · rintro ⟨p, -, -, hpa, hprobes⟩
    exact ⟨p, hpa, hprobes⟩
  · rintro ⟨p, hpa, hprobes⟩
    exact ⟨p, Nat.zero_le p, (List.getElem?_eq_some_iff.mp hpa).1, hpa, hprobes⟩

theorem mem_of_bisect (h : bisect arr a 0 arr.length) : a ∈ arr := by
  obtain ⟨p, hpa, -⟩ := bisect_iff.mp h
  exact mem_of_getElem? hpa

/-- A value of a sorted list is found. -/
theorem bisect_range_of_sorted (hsorted : arr.Pairwise (· ≤ ·)) {start stop p : ℕ}
    (hstop : stop ≤ arr.length) (hstart : start ≤ p) (hp : p < stop) (hpa : arr[p]? = some a) :
    bisect arr a start stop := by
  have hle {i j : ℕ} {x y : α} (hij : i < j) (hx : arr[i]? = some x) (hy : arr[j]? = some y) :
      x ≤ y := by
    obtain ⟨hi, rfl⟩ := List.getElem?_eq_some_iff.mp hx
    obtain ⟨hj, rfl⟩ := List.getElem?_eq_some_iff.mp hy
    exact List.pairwise_iff_getElem.mp hsorted i j hi hj hij
  fun_induction bisect arr a start stop with
  | case1 start stop hlt mid hnone =>
    have hmid : mid < arr.length := by omega
    rw [getElem?_eq_getElem hmid] at hnone
    cases hnone
  | case2 => rfl
  | case3 start stop hlt mid val hval hne hless ih =>
    refine ih hstop ?_ hp
    by_contra hpm
    rcases Nat.lt_or_eq_of_le (Nat.lt_succ_iff.mp (not_le.mp hpm)) with h | h
    · exact absurd (hle h hpa hval) (not_le.mpr hless)
    · rw [h, hval] at hpa
      exact hne (Option.some.inj hpa).symm
  | case4 start stop hlt mid val hval hne hless ih =>
    refine ih (by omega) hstart ?_
    by_contra hpm
    rcases Nat.lt_or_eq_of_le (not_lt.mp hpm) with h | h
    · exact hne (le_antisymm (not_lt.mp hless) (hle h hval hpa))
    · rw [← h, hval] at hpa
      exact hne (Option.some.inj hpa).symm
  | case5 start stop hlt => omega

/-- **In a sorted list** the search finds what is there. -/
theorem bisect_iff_mem (hsorted : arr.Pairwise (· ≤ ·)) : bisect arr a 0 arr.length ↔ a ∈ arr := by
  refine ⟨mem_of_bisect, fun hmem => ?_⟩
  obtain ⟨p, hp, hpa⟩ := mem_iff_getElem.mp hmem
  exact bisect_range_of_sorted hsorted le_rfl (Nat.zero_le p) hp
    (List.getElem?_eq_some_iff.mpr ⟨hp, hpa⟩)

end V2I
