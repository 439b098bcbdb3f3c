import Mathlib.Data.List.Cycle

/-!
# V2I.Lib.Cycles

Disjoint circular lists, with no element of a list set apart from the others:

* `Cycles.exchange` — some of them replaced by others;
* `Cycles.Together` — two elements of one list, and `Cycles.Free` — an element alone or in none.
-/

namespace V2I

/-- Circular lists without an element in common. -/
structure Cycles (N : Type*) where
  lists : Set (Cycle N)
  nodup : ∀ c ∈ lists, c.Nodup
  nonempty : ∀ c ∈ lists, c ≠ Cycle.nil
  apart : ∀ c ∈ lists, ∀ d ∈ lists, ∀ x, x ∈ c → x ∈ d → c = d

namespace Cycles

variable {N : Type*} {L : Cycles N} {c d : Cycle N} {x y : N} {l m : List N}

/-! ## One circular list -/

/-- A list behind one part of it is the same circular list as with that part at the end. -/
theorem coe_append_comm (l m : List N) : (↑(l ++ m) : Cycle N) = ↑(m ++ l) :=
  Cycle.coe_eq_coe.mpr List.isRotated_append

/-- A circular list begins with any of its elements. -/
theorem exists_coe_cons (hx : x ∈ c) : ∃ l : List N, c = ↑(x :: l) := by
  obtain ⟨k, rfl⟩ : ∃ k : List N, c = ↑k := Quot.exists_rep c |>.imp fun k hk => hk.symm
  obtain ⟨l, m, rfl⟩ := List.append_of_mem (Cycle.mem_coe_iff.mp hx)
  exact ⟨m ++ l, coe_append_comm l (x :: m)⟩

theorem exists_mem (hc : c ≠ Cycle.nil) : ∃ x, x ∈ c := by
  induction c with
  | nil => exact absurd rfl hc
  | cons a l => exact ⟨a, by simp⟩

/-! ## All of them -/

/-- Two elements are in one list. -/
def Together (L : Cycles N) (x y : N) : Prop := ∃ c ∈ L.lists, x ∈ c ∧ y ∈ c

/-- No list has other elements together with this one. -/
def Free (L : Cycles N) (x : N) : Prop := ∀ c ∈ L.lists, x ∈ c → c = ↑[x]

/-- The lists of `old` are replaced by those of `new`, whose elements are in no other list. -/
def exchange (L : Cycles N) (old new : Set (Cycle N)) (hnodup : ∀ c ∈ new, c.Nodup)
    (hnonempty : ∀ c ∈ new, c ≠ Cycle.nil)
    (hapart : ∀ c ∈ new, ∀ d ∈ new, ∀ x, x ∈ c → x ∈ d → c = d)
    (hold : ∀ c ∈ new, ∀ d ∈ L.lists, ∀ x, x ∈ c → x ∈ d → d ∈ old) : Cycles N where
  lists := L.lists \ old ∪ new
  nodup := by
    rintro c (⟨hc, -⟩ | hc)
    · exact L.nodup c hc
    · exact hnodup c hc
  nonempty := by
    rintro c (⟨hc, -⟩ | hc)
    · exact L.nonempty c hc
    · exact hnonempty c hc
  apart := by
    rintro c (⟨hc, hcold⟩ | hc) d (⟨hd, hdold⟩ | hd) x hxc hxd
    · exact L.apart c hc d hd x hxc hxd
    · exact absurd (hold d hd c hc x hxd hxc) hcold
    · exact absurd (hold c hc d hd x hxc hxd) hdold
    · exact hapart c hc d hd x hxc hxd

variable {old new : Set (Cycle N)} {hnodup : ∀ c ∈ new, c.Nodup}
  {hnonempty : ∀ c ∈ new, c ≠ Cycle.nil}
  {hapart : ∀ c ∈ new, ∀ d ∈ new, ∀ x, x ∈ c → x ∈ d → c = d}
  {hold : ∀ c ∈ new, ∀ d ∈ L.lists, ∀ x, x ∈ c → x ∈ d → d ∈ old}

/-- Two elements that are together in `old` as they are in `new`. -/
theorem together_exchange (hsub : old ⊆ L.lists ∪ {c | x ∉ c ∨ y ∉ c})
    (h : (∃ c ∈ old, x ∈ c ∧ y ∈ c) ↔ ∃ c ∈ new, x ∈ c ∧ y ∈ c) :
    (L.exchange old new hnodup hnonempty hapart hold).Together x y ↔ L.Together x y := by
  constructor
  · rintro ⟨c, ⟨hc, -⟩ | hc, hxc, hyc⟩
    · exact ⟨c, hc, hxc, hyc⟩
    · obtain ⟨d, hd, hxd, hyd⟩ := h.mpr ⟨c, hc, hxc, hyc⟩
      rcases hsub hd with hd | hxy
      · exact ⟨d, hd, hxd, hyd⟩
      · exact (hxy.elim (· hxd) (· hyd)).elim
  · rintro ⟨c, hc, hxc, hyc⟩
    by_cases hcold : c ∈ old
    · obtain ⟨d, hd, hxd, hyd⟩ := h.mp ⟨c, hcold, hxc, hyc⟩
      exact ⟨d, .inr hd, hxd, hyd⟩
    · exact ⟨c, .inl ⟨hc, hcold⟩, hxc, hyc⟩

end Cycles

end V2I
