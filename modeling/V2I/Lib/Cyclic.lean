import Mathlib.Algebra.Ring.Parity
import Mathlib.Data.List.Zip

/-!
# V2I.Lib.Cyclic

A list as a cycle: the pairs of neighbours, the last element with the first one.
-/

namespace V2I.Cyclic

open List

variable {α β : Type*}

/-- Each element with the next one. -/
def pairs : List α → List (α × α)
  | [] => []
  | a :: l => (a :: l).zip (l ++ [a])

variable {a b c : α} {l : List α} {e : α × α}

theorem length_pairs (l : List α) : (pairs l).length = l.length := by
  cases l <;> simp [pairs]

theorem pairs_map (f : α → β) (l : List α) : pairs (l.map f) = (pairs l).map (Prod.map f f) := by
  cases l with
  | nil => rfl
  | cons a l =>
      have happend : l.map f ++ [f a] = (l ++ [a]).map f := by simp
      rw [pairs, map_cons, pairs, ← map_cons, happend, zip_map]

theorem mem_of_mem_pairs (h : e ∈ pairs l) : e.1 ∈ l ∧ e.2 ∈ l := by
  cases l with
  | nil => cases h
  | cons a l =>
      obtain ⟨h₁, h₂⟩ := of_mem_zip h
      exact ⟨h₁, by simpa [or_comm] using h₂⟩

/-- Reversed, with the first element in its place. -/
theorem pairs_reverse (a : α) (l : List α) :
    pairs (a :: l.reverse) = (pairs (a :: l)).reverse.map Prod.swap := by
  have hlen : (a :: l).length = (l ++ [a]).length := by simp
  have hzip : ((a :: l).zip (l ++ [a])).reverse = (l.reverse ++ [a]).zip (a :: l.reverse) := by
    rw [zip_eq_zipWith, reverse_zipWith hlen, reverse_cons, reverse_append, zip_eq_zipWith]
    rfl
  rw [pairs, pairs, hzip, zip_swap]

/-! ## Changes -/

/-- Along a path that keeps a property. -/
theorem path_keeps {p : α → Prop} (h : ∀ e ∈ (a :: l).zip (l ++ [c]), p e.1 → p e.2) :
    (∀ x ∈ a :: l, p x → p c) ∧ (p a → ∀ x ∈ l, p x) := by
  induction l generalizing a with
  | nil => simpa using h
  | cons b l ih =>
      have hcons : p a → p b := h (a, b) (by simp)
      obtain ⟨hend, hall⟩ := ih fun e he => h e (mem_cons_of_mem _ he)
      constructor
      · intro x hx hpx
        rcases mem_cons.mp hx with rfl | hx
        · exact hend b mem_cons_self (hcons hpx)
        · exact hend x hx hpx
      · intro hpa x hx
        rcases mem_cons.mp hx with rfl | hx
        · exact hcons hpa
        · exact hall (hcons hpa) x hx

/-- **A property** that one element has and another one has not is lost somewhere. -/
theorem exists_change {p : α → Prop} (ha : a ∈ l) (hpa : p a) (hb : b ∈ l) (hpb : ¬ p b) :
    ∃ e ∈ pairs l, p e.1 ∧ ¬ p e.2 := by
  by_contra hnone
  push Not at hnone
  cases l with
  | nil => cases ha
  | cons c l =>
      obtain ⟨hend, hall⟩ := path_keeps hnone
      rcases mem_cons.mp hb with rfl | hb
      · exact hpb (hend a ha hpa)
      · exact hpb (hall (hend a ha hpa) b hb)

variable {i : ℕ}

theorem pairs_getElem_fst (hi : i < l.length) (hi' : i < (pairs l).length) :
    (pairs l)[i].1 = l[i] := by
  cases l with
  | nil => cases hi
  | cons a l => simp [pairs]

theorem exists_pair (ha : a ∈ l) : ∃ e ∈ pairs l, e.1 = a := by
  obtain ⟨i, hi, rfl⟩ := mem_iff_getElem.mp ha
  have hi' : i < (pairs l).length := by rwa [length_pairs]
  exact ⟨(pairs l)[i], getElem_mem hi', pairs_getElem_fst hi hi'⟩

/-- The parity of the changes along a path. -/
theorem odd_countP_path (g : α → Bool) (a c : α) (l : List α) :
    Odd (((a :: l).zip (l ++ [c])).countP fun e => g e.1 != g e.2) ↔ g a ≠ g c := by
  induction l generalizing a with
  | nil => cases hga : g a <;> cases hgc : g c <;> simp [hga, hgc]
  | cons b l ih =>
      rw [cons_append, zip_cons_cons, countP_cons]
      specialize ih b
      cases hga : g a <;> cases hgb : g b <;> cases hgc : g c <;>
        simp_all [Nat.odd_add_one]

/-- **The changes** around a cycle are even in number. -/
theorem even_countP_ne (g : α → Bool) (l : List α) :
    Even ((pairs l).countP fun e => g e.1 != g e.2) := by
  cases l with
  | nil => exact Even.zero
  | cons a l =>
      rw [← Nat.not_odd_iff_even, pairs, odd_countP_path]
      simp

/-! ## One gain -/

theorem pairs_getElem (hi : i + 1 < l.length) (hi' : i < (pairs l).length) :
    (pairs l)[i] = (l[i], l[i + 1]) := by
  cases l with
  | nil => cases hi
  | cons a l =>
      have hlt : i < l.length := by simpa using hi
      simp only [pairs, getElem_zip, getElem_append_left hlt, getElem_cons_succ]

theorem pairs_getElem_last (hi : i + 1 = l.length) (hi' : i < (pairs l).length) :
    (pairs l)[i] = (l[i], l[0]) := by
  cases l with
  | nil => cases hi
  | cons a l =>
      obtain rfl : i = l.length := by simpa using hi
      simp [pairs]

/-- No four elements, one behind the other, that have a property and do not in turn. -/
def Alternates (g : α → Bool) (l : List α) : Prop :=
  ∃ i j k m, ∃ (hij : i < j) (hjk : j < k) (hkm : k < m) (hm : m < l.length),
    g l[i] ≠ g l[j] ∧ g l[j] ≠ g l[k] ∧ g l[k] ≠ g l[m]

/-- Two gains make it alternate. -/
theorem alternates_of_two {g : α → Bool} {j : ℕ} (hij : i < j) (hj : j < l.length)
    (hi' : i < (pairs l).length) (hj' : j < (pairs l).length)
    (hgi : g (pairs l)[i].1 = false ∧ g (pairs l)[i].2 = true)
    (hgj : g (pairs l)[j].1 = false ∧ g (pairs l)[j].2 = true) : Alternates g l := by
  rw [pairs_getElem (by omega) hi'] at hgi
  obtain ⟨hi₁, hi₂⟩ := hgi
  have hne : i + 1 ≠ j := by
    rintro rfl
    rw [pairs_getElem_fst hj hj'] at hgj
    simp [hi₂] at hgj
  rcases Nat.lt_or_eq_of_le (Nat.succ_le_of_lt hj) with hlast | hlast
  · rw [pairs_getElem hlast hj'] at hgj
    obtain ⟨hj₁, hj₂⟩ := hgj
    refine ⟨i, i + 1, j, j + 1, Nat.lt_succ_self i, by omega, Nat.lt_succ_self j, hlast, ?_⟩
    simp [hi₁, hi₂, hj₁, hj₂]
  · rw [pairs_getElem_last hlast hj'] at hgj
    obtain ⟨hj₁, hj₂⟩ := hgj
    have hzero : 0 < i := by
      refine Nat.pos_of_ne_zero ?_
      rintro rfl
      simp [hj₂] at hi₁
    refine ⟨0, i, i + 1, j, hzero, Nat.lt_succ_self i, by omega, hj, ?_⟩
    simp [hi₁, hi₂, hj₁, hj₂]

/-- **The property is gained once** around a cycle in which it does not alternate. -/
theorem countP_gain_eq_one {g : α → Bool} (halt : ¬ Alternates g l) (ha : a ∈ l) (hga : g a = false)
    (hb : b ∈ l) (hgb : g b = true) : (pairs l).countP (fun e => !g e.1 && g e.2) = 1 := by
  have hpair : (pairs l).Pairwise fun e e' =>
      ¬ ((!g e.1 && g e.2) = true ∧ (!g e'.1 && g e'.2) = true) := by
    refine pairwise_iff_getElem.mpr fun i j hi hj hij => ?_
    rintro ⟨hgi, hgj⟩
    refine halt (alternates_of_two hij (length_pairs l ▸ hj) hi hj ?_ ?_)
    · simpa using hgi
    · simpa using hgj
  refine le_antisymm ?_ ?_
  · by_contra hlt
    rw [countP_eq_length_filter, not_le] at hlt
    have hfilter := pairwise_iff_getElem.mp (hpair.filter fun e => !g e.1 && g e.2)
    refine hfilter 0 1 (by omega) hlt Nat.zero_lt_one ⟨?_, ?_⟩
    · exact of_mem_filter (p := fun e : α × α => !g e.1 && g e.2) (getElem_mem _)
    · exact of_mem_filter (p := fun e : α × α => !g e.1 && g e.2) (getElem_mem _)
  · obtain ⟨e, he, h₁, h₂⟩ := exists_change (p := fun x => g x = false) ha hga hb (by simp [hgb])
    refine countP_pos_iff.mpr ⟨e, he, ?_⟩
    simp [h₁, (Bool.not_eq_false _).mp h₂]

end V2I.Cyclic
