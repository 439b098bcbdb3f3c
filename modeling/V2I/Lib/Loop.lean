import Mathlib.Order.WellFounded

/-!
# V2I.Lib.Loop

A loop as its body: from a state it leaves with a result or goes on in another state. `run`
gives it a number of rounds; `Returns` says that some number is enough.
-/

namespace V2I.Loop

variable {σ ρ : Type*}

/-- At most `n` rounds of a loop. -/
def run (step : σ → ρ ⊕ σ) : ℕ → σ → Option ρ
  | 0, _ => none
  | n + 1, s =>
      match step s with
      | .inl r => some r
      | .inr s' => run step n s'

/-- The loop ends with `r`. -/
def Returns (step : σ → ρ ⊕ σ) (s : σ) (r : ρ) : Prop := ∃ n, run step n s = some r

/-- The states that a loop passes through. -/
inductive Reaches (step : σ → ρ ⊕ σ) : σ → σ → Prop
  | refl (s) : Reaches step s s
  | head {s s' t} : step s = .inr s' → Reaches step s' t → Reaches step s t

variable {step : σ → ρ ⊕ σ} {s : σ} {r : ρ}

theorem run_succ_of_inl (h : step s = .inl r) (n : ℕ) : run step (n + 1) s = some r := by
  rw [run, h]

theorem run_succ_of_inr {s' : σ} (h : step s = .inr s') (n : ℕ) :
    run step (n + 1) s = run step n s' := by
  rw [run, h]

theorem Returns.of_inl (h : step s = .inl r) : Returns step s r :=
  ⟨1, run_succ_of_inl h 0⟩

theorem Returns.head {s' : σ} (h : step s = .inr s') (hr : Returns step s' r) : Returns step s r :=
  hr.imp' (· + 1) fun n hn => (run_succ_of_inr h n).trans hn

theorem Reaches.trans {t u : σ} (h : Reaches step s t) (h' : Reaches step t u) :
    Reaches step s u := by
  induction h with
  | refl => exact h'
  | head hstep _ ih => exact .head hstep (ih h')

/-- What a round keeps, a loop keeps. -/
theorem Reaches.invariant {I : σ → Prop} (hstep : ∀ s s', I s → step s = .inr s' → I s') {t : σ}
    (h : Reaches step s t) (hs : I s) : I t := by
  induction h with
  | refl => exact hs
  | head hround _ ih => exact ih (hstep _ _ hs hround)

/-- A loop ends in the round that leaves it. -/
theorem returns_iff : Returns step s r ↔ ∃ t, Reaches step s t ∧ step t = .inl r := by
  constructor
  · rintro ⟨n, hn⟩
    induction n generalizing s with
    | zero => cases hn
    | succ n ih =>
        cases hs : step s with
        | inl r' =>
            rw [run_succ_of_inl hs] at hn
            cases hn
            exact ⟨s, .refl s, hs⟩
        | inr s' =>
            rw [run_succ_of_inr hs] at hn
            obtain ⟨t, ht, hr⟩ := ih hn
            exact ⟨t, .head hs ht, hr⟩
  · rintro ⟨t, ht, hr⟩
    induction ht with
    | refl => exact .of_inl hr
    | head hstep _ ih => exact .head hstep (ih hr)

theorem Returns.unique {r' : ρ} (h : Returns step s r) (h' : Returns step s r') : r = r' := by
  obtain ⟨n, hn⟩ := h
  induction n generalizing s with
  | zero => cases hn
  | succ n ih =>
      obtain ⟨n', hn'⟩ := h'
      cases n' with
      | zero => cases hn'
      | succ n' =>
          cases hs : step s with
          | inl r'' =>
              rw [run_succ_of_inl hs] at hn hn'
              exact Option.some.inj (hn.symm.trans hn')
          | inr s' =>
              rw [run_succ_of_inr hs] at hn hn'
              exact ih ⟨n', hn'⟩ hn

/-- A loop ends when some relation without infinite descent goes down in each round, as
long as an invariant holds. -/
theorem exists_returns {α : Type*} {rel : α → α → Prop} (hwf : WellFounded rel) (measure : σ → α)
    {I : σ → Prop} (hstep : ∀ s s', I s → step s = .inr s' → I s' ∧ rel (measure s') (measure s))
    (hs : I s) : ∃ r, Returns step s r := by
  induction hm : measure s using hwf.induction generalizing s with
  | _ m ih =>
      cases h : step s with
      | inl r => exact ⟨r, .of_inl h⟩
      | inr s' =>
          obtain ⟨hs', hrel⟩ := hstep s s' hs h
          obtain ⟨r, hr⟩ := ih (measure s') (hm ▸ hrel) hs' rfl
          exact ⟨r, .head h hr⟩

end V2I.Loop
