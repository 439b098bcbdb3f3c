import Mathlib.Algebra.Ring.Int.Defs
import Mathlib.Logic.Equiv.Basic

/-!
# V2I.Lib.SortedArray

Arrays with `int` indices that are sorted and searched through comparison functions: the quick sort
that moves a hole to and fro between the ends of a range, and the binary search. What one function
has sorted is found through another one if both have the elements in the same order
(`binarySearch_quickSort_isSome_iff`).
-/

namespace V2I.SortedArray

open Function

open Function (update)

variable {α : Type*}

/-! ## scans -/

/-- Down from `high`, but not beyond `low`, as long as there is `p`. -/
def scanDown (p : ℤ → Bool) (low high : ℤ) : ℤ :=
  if low < high && p high then scanDown p low (high - 1) else high
termination_by (high - low).toNat
decreasing_by
  rename_i h
  have := (Bool.and_eq_true_iff.1 h).1
  simp only [decide_eq_true_eq] at this
  omega

/-- Up from `low`, but not beyond `high`, as long as there is `p`. -/
def scanUp (p : ℤ → Bool) (low high : ℤ) : ℤ :=
  if low < high && p low then scanUp p (low + 1) high else low
termination_by (high - low).toNat
decreasing_by
  rename_i h
  have := (Bool.and_eq_true_iff.1 h).1
  simp only [decide_eq_true_eq] at this
  omega

theorem scanDown_spec (p : ℤ → Bool) {low high : ℤ} (h : low ≤ high) :
    low ≤ scanDown p low high ∧ scanDown p low high ≤ high ∧
      (∀ i, scanDown p low high < i → i ≤ high → p i) ∧
      (low < scanDown p low high → p (scanDown p low high) = false) := by
  fun_induction scanDown p low high with
  | case1 high hcond ih =>
      simp only [Bool.and_eq_true, decide_eq_true_eq] at hcond
      obtain ⟨hlow, hhigh, hbetween, hstop⟩ := ih (by omega)
      refine ⟨hlow, by omega, fun i hi hle => ?_, hstop⟩
      rcases eq_or_ne i high with rfl | hne
      · exact hcond.2
      · exact hbetween i hi (by omega)
  | case2 high hcond =>
      refine ⟨h, Int.le_refl _, fun i hi hle => absurd hi (by omega), fun hlt => ?_⟩
      simpa [hlt] using hcond

theorem scanUp_spec (p : ℤ → Bool) {low high : ℤ} (h : low ≤ high) :
    low ≤ scanUp p low high ∧ scanUp p low high ≤ high ∧
      (∀ i, low ≤ i → i < scanUp p low high → p i) ∧
      (scanUp p low high < high → p (scanUp p low high) = false) := by
  fun_induction scanUp p low high with
  | case1 low hcond ih =>
      simp only [Bool.and_eq_true, decide_eq_true_eq] at hcond
      obtain ⟨hlow, hhigh, hbetween, hstop⟩ := ih (by omega)
      refine ⟨by omega, hhigh, fun i hi hlt => ?_, hstop⟩
      rcases eq_or_ne i low with rfl | hne
      · exact hcond.2
      · exact hbetween i (by omega) hlt
  | case2 low hcond =>
      refine ⟨Int.le_refl _, h, fun i hi hlt => absurd hi (by omega), fun hlt => ?_⟩
      simpa [hlt] using hcond

/-! ## rearranging a range -/

/-- The elements of a range are the same in another order, and the others are as they were. -/
def Rearranged (start stop : ℤ) (f g : ℤ → α) : Prop :=
  ∃ σ : Equiv.Perm ℤ, (∀ i, ¬(start ≤ i ∧ i ≤ stop) → σ i = i) ∧ g = f ∘ σ

namespace Rearranged

variable {start stop : ℤ} {f g h : ℤ → α}

theorem refl (start stop : ℤ) (f : ℤ → α) : Rearranged start stop f f :=
  ⟨Equiv.refl ℤ, fun _ _ => rfl, rfl⟩

theorem trans (hfg : Rearranged start stop f g) (hgh : Rearranged start stop g h) :
    Rearranged start stop f h := by
  obtain ⟨σ, hσ, rfl⟩ := hfg
  obtain ⟨τ, hτ, rfl⟩ := hgh
  exact ⟨τ.trans σ, fun i hi => by rw [Equiv.trans_apply, hτ i hi, hσ i hi], rfl⟩

theorem mono {start' stop' : ℤ} (hfg : Rearranged start stop f g) (hstart : start' ≤ start)
    (hstop : stop ≤ stop') : Rearranged start' stop' f g := by
  obtain ⟨σ, hσ, heq⟩ := hfg
  exact ⟨σ, fun i hi => hσ i fun h => hi ⟨by omega, by omega⟩, heq⟩

theorem symm (hfg : Rearranged start stop f g) : Rearranged start stop g f := by
  obtain ⟨σ, hσ, rfl⟩ := hfg
  refine ⟨σ.symm, fun i hi => (Equiv.symm_apply_eq σ).2 (hσ i hi).symm, ?_⟩
  rw [comp_assoc, Equiv.self_comp_symm, comp_id]

theorem eq_of_not_mem (hfg : Rearranged start stop f g) {i : ℤ}
    (hi : ¬(start ≤ i ∧ i ≤ stop)) : g i = f i := by
  obtain ⟨σ, hσ, rfl⟩ := hfg
  exact congrArg f (hσ i hi)

/-- What is in the range afterwards was in it before. -/
theorem exists_eq (hfg : Rearranged start stop f g) {i : ℤ} (hi : start ≤ i ∧ i ≤ stop) :
    ∃ j, (start ≤ j ∧ j ≤ stop) ∧ g i = f j := by
  obtain ⟨σ, hσ, rfl⟩ := hfg
  refine ⟨σ i, ?_, rfl⟩
  by_contra hout
  have hfix := σ.injective (hσ (σ i) hout)
  rw [hfix] at hout
  exact hout hi

/-- Filling the hole from the other end moves the hole there. -/
theorem fill_hole {i j : ℤ} (hi : start ≤ i ∧ i ≤ stop) (hj : start ≤ j ∧ j ≤ stop) {x : α}
    (hf : Rearranged start stop g (update f i x)) :
    Rearranged start stop g (update (update f i (f j)) j x) := by
  refine hf.trans ⟨Equiv.swap i j, fun k hk => ?_, funext fun k => ?_⟩
  · exact Equiv.swap_apply_of_ne_of_ne (fun h => hk (h ▸ hi)) fun h => hk (h ▸ hj)
  · rw [comp_apply]
    rcases eq_or_ne k j with rfl | hkj
    · rw [Equiv.swap_apply_right, update_self, update_self]
    · rw [update_of_ne hkj]
      rcases eq_or_ne k i with rfl | hki
      · rw [Equiv.swap_apply_left, update_self, update_of_ne (Ne.symm hkj)]
      · rw [Equiv.swap_apply_of_ne_of_ne hki hkj, update_of_ne hki, update_of_ne hki]

end Rearranged

/-! ## quick sort -/

/-- The loop that parts the range around `key`: the hole is at `low`. -/
def partitionLoop (cmp : α → α → Ordering) (key : α) (arr : ℤ → α) (low high : ℤ) : (ℤ → α) × ℤ :=
  if low < high then
    let high₁ := scanDown (fun i => (cmp (arr i) key).isGE) low high
    if low < high₁ then
      let arr₁ := update arr low (arr high₁)
      let low₁ := scanUp (fun i => (cmp (arr₁ i) key).isLE) (low + 1) high₁
      if low₁ < high₁ then
        partitionLoop cmp key (update arr₁ high₁ (arr₁ low₁)) low₁ (high₁ - 1)
      else partitionLoop cmp key arr₁ low₁ high₁
    else partitionLoop cmp key arr low high₁
  else (update arr low key, low)
termination_by (high - low).toNat
decreasing_by
  · rename_i hlt hdown _
    have hhigh : high₁ ≤ high := (scanDown_spec _ (by omega)).2.1
    have hlow : low + 1 ≤ low₁ := (scanUp_spec _ (by omega)).1
    change (high₁ - 1 - low₁).toNat < (high - low).toNat
    omega
  · rename_i hlt hdown _
    change (high₁ - low₁).toNat < (high - low).toNat
    omega
  · rename_i hlt hdown
    change (high₁ - low).toNat < (high - low).toNat
    omega

/-- `qsort_partition`: the first element of the range goes to its place. -/
def qsortPartition (cmp : α → α → Ordering) (arr : ℤ → α) (low high : ℤ) : (ℤ → α) × ℤ :=
  partitionLoop cmp (arr low) arr low high

variable {cmp : α → α → Ordering} {start stop : ℤ}

/-- The loop in the middle of its work: with `key` in the hole at `low` the elements are those that
there were, nothing before the hole is greater than `key` and nothing behind `high` smaller. -/
structure Parted (cmp : α → α → Ordering) (key : α) (start stop : ℤ) (orig arr : ℤ → α)
    (low high : ℤ) : Prop where
  start_le : start ≤ low
  low_le : low ≤ high
  le_stop : high ≤ stop
  rearranged : Rearranged start stop orig (update arr low key)
  left : ∀ i, start ≤ i → i < low → (cmp (arr i) key).isLE
  right : ∀ i, high < i → i ≤ stop → (cmp (arr i) key).isGE

theorem isLE_of_isGE_eq_false {o : Ordering} (h : o.isGE = false) : o.isLE := by
  cases o <;> simp_all

theorem isGE_of_isLE_eq_false {o : Ordering} (h : o.isLE = false) : o.isGE := by
  cases o <;> simp_all

namespace Parted

variable {orig arr : ℤ → α} {key : α} {low high high₁ low₁ : ℤ}

/-- The scan from above ends at the hole. -/
theorem down_stop (h : Parted cmp key start stop orig arr low high) (hhigh : high₁ = low)
    (hgreat : ∀ i, high₁ < i → i ≤ high → (cmp (arr i) key).isGE) :
    Parted cmp key start stop orig arr low high₁ where
  start_le := h.start_le
  low_le := by omega
  le_stop := by
    have hle := h.le_stop
    have hlow := h.low_le
    omega
  rearranged := h.rearranged
  left := h.left
  right i hi hstop := by
    by_cases hi' : i ≤ high
    · exact hgreat i hi hi'
    · exact h.right i (by omega) hstop

/-- The scan from above finds an element, which fills the hole, and the scan from below ends at the
new hole. -/
theorem up_stop (h : Parted cmp key start stop orig arr low high) (hlow : low < high₁)
    (hhigh : high₁ ≤ high) (hgreat : ∀ i, high₁ < i → i ≤ high → (cmp (arr i) key).isGE)
    (hless : (cmp (arr high₁) key).isLE)
    (hsmall : ∀ i, low < i → i < high₁ → (cmp (arr i) key).isLE) :
    Parted cmp key start stop orig (update arr low (arr high₁)) high₁ high₁ where
  start_le := by
    have hle := h.start_le
    omega
  low_le := Int.le_refl _
  le_stop := by
    have hle := h.le_stop
    omega
  rearranged := by
    have hle := h.le_stop
    have hge := h.start_le
    exact h.rearranged.fill_hole ⟨by omega, by omega⟩ ⟨by omega, by omega⟩
  left i hi hlt := by
    rcases eq_or_ne i low with rfl | hne
    · rwa [update_self]
    · rw [update_of_ne hne]
      by_cases hi' : i < low
      · exact h.left i hi hi'
      · exact hsmall i (by omega) hlt
  right i hi hstop := by
    rw [update_of_ne (by omega)]
    by_cases hi' : i ≤ high
    · exact hgreat i hi hi'
    · exact h.right i (by omega) hstop

/-- Both scans find an element, and each fills the hole at the other end. -/
theorem exchange (h : Parted cmp key start stop orig arr low high) (hlow : low < low₁)
    (hbetween : low₁ < high₁) (hhigh : high₁ ≤ high)
    (hgreat : ∀ i, high₁ < i → i ≤ high → (cmp (arr i) key).isGE)
    (hless : (cmp (arr high₁) key).isLE) (hsmall : ∀ i, low < i → i < low₁ → (cmp (arr i) key).isLE)
    (hmore : (cmp (arr low₁) key).isGE) :
    Parted cmp key start stop orig
      (update (update arr low (arr high₁)) high₁ (update arr low (arr high₁) low₁)) low₁
      (high₁ - 1) where
  start_le := by
    have hle := h.start_le
    omega
  low_le := by omega
  le_stop := by
    have hle := h.le_stop
    omega
  rearranged := by
    have hle := h.le_stop
    have hge := h.start_le
    exact (h.rearranged.fill_hole ⟨by omega, by omega⟩ ⟨by omega, by omega⟩).fill_hole
      ⟨by omega, by omega⟩ ⟨by omega, by omega⟩
  left i hi hlt := by
    rw [update_of_ne (by omega)]
    rcases eq_or_ne i low with rfl | hne
    · rwa [update_self]
    · rw [update_of_ne hne]
      by_cases hi' : i < low
      · exact h.left i hi hi'
      · exact hsmall i (by omega) hlt
  right i hi hstop := by
    rcases eq_or_ne i high₁ with rfl | hne
    · rwa [update_self, update_of_ne (by omega)]
    · rw [update_of_ne hne, update_of_ne (by omega)]
      by_cases hi' : i ≤ high
      · exact hgreat i (by omega) hi'
      · exact h.right i (by omega) hstop

end Parted

/-- **The loop parts the range**, with `key` in between. -/
theorem partitionLoop_spec {orig arr : ℤ → α} {key : α} {low high : ℤ}
    (h : Parted cmp key start stop orig arr low high) :
    Parted cmp key start stop orig (partitionLoop cmp key arr low high).1
        (partitionLoop cmp key arr low high).2 (partitionLoop cmp key arr low high).2 ∧
      (partitionLoop cmp key arr low high).1 (partitionLoop cmp key arr low high).2 = key := by
  fun_induction partitionLoop cmp key arr low high with
  | case1 arr low high hlt high₁ hdown arr₁ low₁ hup ih =>
      obtain ⟨-, hhigh, hgreat, hless⟩ :=
        scanDown_spec (fun i => (cmp (arr i) key).isGE) h.low_le
      obtain ⟨hlow, -, hsmall, hmore⟩ :=
        scanUp_spec (fun i => (cmp (arr₁ i) key).isLE) (show low + 1 ≤ high₁ by omega)
      have harr₁ {i : ℤ} (hi : low < i) : arr₁ i = arr i := update_of_ne (by omega) _ _
      refine ih (h.exchange (by omega) hup hhigh hgreat (isLE_of_isGE_eq_false (hless hdown))
        (fun i hi hlt' => ?_) ?_)
      · rw [← harr₁ hi]
        exact hsmall i (by omega) hlt'
      · rw [← harr₁ (show low < low₁ by omega)]
        exact isGE_of_isLE_eq_false (hmore hup)
  | case2 arr low high hlt high₁ hdown arr₁ low₁ hup ih =>
      obtain ⟨-, hhigh, hgreat, hless⟩ :=
        scanDown_spec (fun i => (cmp (arr i) key).isGE) h.low_le
      obtain ⟨-, hle, hsmall, -⟩ :=
        scanUp_spec (fun i => (cmp (arr₁ i) key).isLE) (show low + 1 ≤ high₁ by omega)
      have harr₁ {i : ℤ} (hi : low < i) : arr₁ i = arr i := update_of_ne (by omega) _ _
      have heq : low₁ = high₁ := by omega
      refine ih (heq.symm ▸ h.up_stop hdown hhigh hgreat (isLE_of_isGE_eq_false (hless hdown))
        fun i hi hlt' => ?_)
      rw [← harr₁ hi]
      exact hsmall i (by omega) (by omega)
  | case3 arr low high hlt high₁ hdown ih =>
      obtain ⟨hlow, -, hgreat, -⟩ :=
        scanDown_spec (fun i => (cmp (arr i) key).isGE) h.low_le
      exact ih (h.down_stop (by omega) hgreat)
  | case4 arr low high hlt =>
      have heq : low = high := by
        have hle := h.low_le
        omega
      subst heq
      dsimp only
      refine ⟨⟨h.start_le, Int.le_refl _, h.le_stop, ?_, fun i hi hlt' => ?_, fun i hi hstop => ?_⟩,
        update_self _ _ _⟩
      · rw [update_idem]
        exact h.rearranged
      · rw [update_of_ne (by omega)]
        exact h.left i hi hlt'
      · rw [update_of_ne (by omega)]
        exact h.right i hi hstop

variable (arr : ℤ → α)

/-- The range before the loop. -/
theorem parted_start (h : start ≤ stop) : Parted cmp (arr start) start stop arr arr start stop where
  start_le := Int.le_refl _
  low_le := h
  le_stop := Int.le_refl _
  rearranged := by
    rw [update_eq_self]
    exact Rearranged.refl _ _ _
  left i hi hlt := by omega
  right i hi hlt := by omega

theorem qsortPartition_spec (h : start ≤ stop) :
    Parted cmp (arr start) start stop arr (qsortPartition cmp arr start stop).1
        (qsortPartition cmp arr start stop).2 (qsortPartition cmp arr start stop).2 ∧
      (qsortPartition cmp arr start stop).1 (qsortPartition cmp arr start stop).2 = arr start :=
  partitionLoop_spec (parted_start arr h)

theorem qsortPartition_mem (cmp : α → α → Ordering) (arr : ℤ → α) (h : start < stop) :
    start ≤ (qsortPartition cmp arr start stop).2 ∧
      (qsortPartition cmp arr start stop).2 ≤ stop := by
  obtain ⟨hparted, -⟩ : Parted cmp (arr start) start stop arr _ _ _ ∧ _ :=
    qsortPartition_spec arr (Int.le_of_lt h)
  exact ⟨hparted.start_le, hparted.le_stop⟩

/-- `quick_sort` -/
def quickSort (cmp : α → α → Ordering) (arr : ℤ → α) (start stop : ℤ) : ℤ → α :=
  if start < stop then
    let parted := qsortPartition cmp arr start stop
    let left := quickSort cmp parted.1 start (parted.2 - 1)
    quickSort cmp left (parted.2 + 1) stop
  else arr
termination_by (stop - start).toNat
decreasing_by
  · rename_i hlt
    have hpos := qsortPartition_mem cmp arr hlt
    omega
  · rename_i hlt
    have hpos := qsortPartition_mem cmp arr hlt
    omega

/-- The elements of a range are in order. -/
def Sorted (cmp : α → α → Ordering) (start stop : ℤ) (arr : ℤ → α) : Prop :=
  ∀ i j, start ≤ i → i ≤ j → j ≤ stop → (cmp (arr i) (arr j)).isLE

/-- **The quick sort sorts.** -/
theorem quickSort_spec [Std.TransCmp cmp] (start stop : ℤ) :
    Rearranged start stop arr (quickSort cmp arr start stop) ∧
      Sorted cmp start stop (quickSort cmp arr start stop) := by
  fun_induction quickSort cmp arr start stop with
  | case1 arr start stop hlt parted left ihleft _ ihright =>
      obtain ⟨hparted, hkey⟩ : Parted cmp (arr start) start stop arr parted.1 parted.2 parted.2 ∧
          parted.1 parted.2 = arr start :=
        qsortPartition_spec arr (Int.le_of_lt hlt)
      obtain ⟨hreleft, hsortedleft⟩ : Rearranged start (parted.2 - 1) parted.1 left ∧
          Sorted cmp start (parted.2 - 1) left := ihleft
      obtain ⟨hreright, hsortedright⟩ := ihright
      have hstart := hparted.start_le
      have hstop := hparted.le_stop
      have hbefore {i : ℤ} (hi : i ≤ parted.2) :
          quickSort cmp left (parted.2 + 1) stop i = left i :=
        hreright.eq_of_not_mem (by omega)
      have hbehind {i : ℤ} (hi : parted.2 ≤ i) : left i = parted.1 i :=
        hreleft.eq_of_not_mem (by omega)
      have hmiddle : quickSort cmp left (parted.2 + 1) stop parted.2 = arr start := by
        rw [hbefore (Int.le_refl _), hbehind (Int.le_refl _), hkey]
      have hrefl (x : α) : (cmp x x).isLE := by
        have hself : cmp x x = .eq := Std.ReflCmp.compare_self
        rw [hself]
        rfl
      -- what is before the key is not greater, and what is behind it not smaller
      have hsmall {i : ℤ} (hi : start ≤ i) (hle : i ≤ parted.2) :
          (cmp (quickSort cmp left (parted.2 + 1) stop i) (arr start)).isLE := by
        rcases eq_or_ne i parted.2 with rfl | hne
        · rw [hmiddle]
          exact hrefl _
        · obtain ⟨k, hk, heq⟩ := hreleft.exists_eq (show start ≤ i ∧ i ≤ parted.2 - 1 by omega)
          rw [hbefore hle, heq]
          exact hparted.left k hk.1 (by omega)
      have hgreat {j : ℤ} (hge : parted.2 ≤ j) (hj : j ≤ stop) :
          (cmp (arr start) (quickSort cmp left (parted.2 + 1) stop j)).isLE := by
        rcases eq_or_ne j parted.2 with rfl | hne
        · rw [hmiddle]
          exact hrefl _
        · obtain ⟨k, hk, heq⟩ := hreright.exists_eq (show parted.2 + 1 ≤ j ∧ j ≤ stop by omega)
          rw [heq, hbehind (by omega)]
          exact Std.OrientedCmp.isGE_iff_isLE.1 (hparted.right k (by omega) hk.2)
      refine ⟨?_, fun i j hi hij hj => ?_⟩
      · have hre := hparted.rearranged
        rw [← hkey, update_eq_self] at hre
        exact (hre.trans (hreleft.mono (Int.le_refl _) (by omega))).trans
          (hreright.mono (by omega) (Int.le_refl _))
      · by_cases hjpos : j < parted.2
        · rw [hbefore (by omega), hbefore (by omega)]
          exact hsortedleft i j hi hij (by omega)
        · by_cases hipos : parted.2 < i
          · exact hsortedright i j (by omega) hij hj
          · exact Std.TransCmp.isLE_trans (hsmall hi (by omega)) (hgreat (by omega) hj)
  | case2 arr start stop hlt =>
      refine ⟨Rearranged.refl _ _ _, fun i j hi hij hj => ?_⟩
      have heq : i = j := by omega
      have hself : cmp (arr j) (arr j) = .eq := Std.ReflCmp.compare_self
      rw [heq, hself]
      rfl

/-! ## binary search -/

/-- `binary_search`: `cmp` compares what is looked for with an element. -/
def binarySearch (cmp : α → Ordering) (arr : ℤ → α) (start stop : ℤ) : Option α :=
  if start ≤ stop then
    let mid := (start + stop) / 2
    match cmp (arr mid) with
    | .eq => some (arr mid)
    | .gt => binarySearch cmp arr (mid + 1) stop
    | .lt => binarySearch cmp arr start (mid - 1)
  else none
termination_by (stop + 1 - start).toNat

/-- **The binary search finds** what is there, in a range where everything before an element that
is too small, and behind one that is too great, is so too. -/
theorem binarySearch_isSome_iff {cmp : α → Ordering} {arr : ℤ → α}
    (hlt : ∀ i j, start ≤ i → i ≤ j → j ≤ stop → cmp (arr i) = .lt → cmp (arr j) = .lt)
    (hgt : ∀ i j, start ≤ i → i ≤ j → j ≤ stop → cmp (arr j) = .gt → cmp (arr i) = .gt) :
    (binarySearch cmp arr start stop).isSome ↔
      ∃ i, start ≤ i ∧ i ≤ stop ∧ cmp (arr i) = .eq := by
  fun_induction binarySearch cmp arr start stop with
  | case1 start stop hle mid heq =>
      exact iff_of_true rfl ⟨mid, by omega, by omega, heq⟩
  | case2 start stop hle mid hmid ih =>
      rw [ih (fun i j hi hij hj => hlt i j (by omega) hij hj)
        fun i j hi hij hj => hgt i j (by omega) hij hj]
      constructor
      · rintro ⟨i, hi, hstop, heq⟩
        exact ⟨i, by omega, hstop, heq⟩
      · rintro ⟨i, hi, hstop, heq⟩
        refine ⟨i, ?_, hstop, heq⟩
        by_contra hlt'
        rw [hgt i mid hi (by omega) (by omega) hmid] at heq
        contradiction
  | case3 start stop hle mid hmid ih =>
      rw [ih (fun i j hi hij hj => hlt i j hi hij (by omega))
        fun i j hi hij hj => hgt i j hi hij (by omega)]
      constructor
      · rintro ⟨i, hi, hstop, heq⟩
        exact ⟨i, hi, by omega, heq⟩
      · rintro ⟨i, hi, hstop, heq⟩
        refine ⟨i, hi, ?_, heq⟩
        by_contra hlt'
        rw [hlt mid i (by omega) (by omega) hstop hmid] at heq
        contradiction
  | case4 start stop hle =>
      refine iff_of_false Bool.false_ne_true ?_
      rintro ⟨i, hi, hstop, -⟩
      omega

/-- **What is sorted is found**, where both functions have the elements in the same order. -/
theorem binarySearch_quickSort_isSome_iff [Std.TransCmp cmp] {search : α → Ordering}
    (hlt : ∀ a b, (cmp a b).isLE → search a = .lt → search b = .lt)
    (hgt : ∀ a b, (cmp a b).isLE → search b = .gt → search a = .gt) (arr : ℤ → α) :
    (binarySearch search (quickSort cmp arr start stop) start stop).isSome ↔
      ∃ i, start ≤ i ∧ i ≤ stop ∧ search (arr i) = .eq := by
  obtain ⟨hre, hsorted⟩ : Rearranged start stop arr (quickSort cmp arr start stop) ∧
      Sorted cmp start stop (quickSort cmp arr start stop) := quickSort_spec arr start stop
  rw [binarySearch_isSome_iff (fun i j hi hij hj => hlt _ _ (hsorted i j hi hij hj))
    fun i j hi hij hj => hgt _ _ (hsorted i j hi hij hj)]
  constructor
  · rintro ⟨i, hi, hstop, heq⟩
    obtain ⟨j, hj, hval⟩ := hre.exists_eq ⟨hi, hstop⟩
    exact ⟨j, hj.1, hj.2, hval ▸ heq⟩
  · rintro ⟨i, hi, hstop, heq⟩
    obtain ⟨j, hj, hval⟩ := hre.symm.exists_eq ⟨hi, hstop⟩
    exact ⟨j, hj.1, hj.2, hval ▸ heq⟩

end V2I.SortedArray
