import Mathlib.Data.List.Basic

/-!
# V2I.Lib.Pass

A pass over a list that carries a state: every item gives a value and changes the state.

* `pass_spec` — what every step keeps, the pass keeps; and where the value of an item does
  not depend on the state, the values are those of a `map`;
* `pass_established` — what one item brings about and no item undoes holds at the end.
-/

namespace V2I

variable {σ α β : Type*}

/-- Visit the items in order. -/
def pass (f : α → σ → β × σ) : List α → σ → List β × σ
  | [], s => ([], s)
  | x :: l, s =>
      let (y, s) := f x s
      let (ys, s) := pass f l s
      (y :: ys, s)

variable {f : α → σ → β × σ} {g : α → β} {R : σ → Prop} {l : List α} {s : σ}

theorem pass_spec (h : ∀ x ∈ l, ∀ s, R s → (f x s).1 = g x ∧ R (f x s).2) (hs : R s) :
    (pass f l s).1 = l.map g ∧ R (pass f l s).2 := by
  induction l generalizing s with
  | nil => exact ⟨rfl, hs⟩
  | cons x l ih =>
      obtain ⟨hx, hl⟩ := List.forall_mem_cons.mp h
      obtain ⟨hval, hstate⟩ := hx s hs
      obtain ⟨hvals, hend⟩ := ih hl hstate
      exact ⟨congrArg₂ List.cons hval hvals, hend⟩

theorem pass_keeps (h : ∀ x ∈ l, ∀ s, R s → R (f x s).2) (hs : R s) : R (pass f l s).2 := by
  induction l generalizing s with
  | nil => exact hs
  | cons x l ih =>
      obtain ⟨hx, hl⟩ := List.forall_mem_cons.mp h
      exact ih hl (hx s hs)

theorem pass_established {x : α} (hx : x ∈ l) (hadd : ∀ s, R (f x s).2)
    (hkeep : ∀ x ∈ l, ∀ s, R s → R (f x s).2) (s : σ) : R (pass f l s).2 := by
  induction l generalizing s with
  | nil => cases hx
  | cons y l ih =>
      obtain ⟨-, hl⟩ := List.forall_mem_cons.mp hkeep
      rcases List.mem_cons.mp hx with rfl | hx
      · have hrest : R (pass f l (f x s).2).2 := pass_keeps hl (hadd s)
        exact hrest
      · exact ih hx hl (f y s).2

end V2I
