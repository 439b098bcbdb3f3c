import Mathlib.Data.List.Basic

/-!
# V2I.Lib.Machine

Deterministic machines that may get stuck, as a step function
`σ → ι → Option (σ × ο)`: from a state and a call it gives the next state and
the reply, or `none` where the program aborts or has no defined behaviour.

Everything here is stated of an arbitrary machine, so that each component of
the repository only proves facts about one step: `run_invariant` lifts an invariant and
`run_simulates` a step-wise simulation to whole runs.
-/

namespace V2I.Machine

open List

variable {σ τ ι ο : Type*}

/-- Run a list of calls, collecting the replies. -/
def run (step : σ → ι → Option (σ × ο)) : σ → List ι → Option (σ × List ο)
  | s, [] => some (s, [])
  | s, c :: cs =>
      match step s c with
      | none => none
      | some (s', r) =>
          match run step s' cs with
          | none => none
          | some (t, rs) => some (t, r :: rs)

/-- Every call of the run meets the guard `P` in the state it is made in. -/
def Guarded (step : σ → ι → Option (σ × ο)) (P : σ → ι → Prop) : σ → List ι → Prop
  | _, [] => True
  | s, c :: cs => P s c ∧ ∀ s' r, step s c = some (s', r) → Guarded step P s' cs

theorem guarded_cons_iff {step : σ → ι → Option (σ × ο)} {P : σ → ι → Prop} {s : σ} {c : ι}
    {cs : List ι} : Guarded step P s (c :: cs) ↔
      P s c ∧ ((step s c).elim True fun p => Guarded step P p.1 cs) := by
  cases h : step s c with
  | none => simp [Guarded, h]
  | some p => simp [Guarded, h, Prod.ext_iff]

instance decidableGuarded {step : σ → ι → Option (σ × ο)} {P : σ → ι → Prop}
    [∀ s c, Decidable (P s c)] : (s : σ) → (cs : List ι) → Decidable (Guarded step P s cs)
  | _, [] => isTrue trivial
  | s, c :: cs =>
      haveI : Decidable ((step s c).elim True fun p => Guarded step P p.1 cs) :=
        match step s c with
        | none => isTrue trivial
        | some p => decidableGuarded p.1 cs
      decidable_of_iff _ guarded_cons_iff.symm

/-- A run of an abstract machine given by a step relation. -/
inductive Runs (astep : τ → ι → ο → τ → Prop) : τ → List ι → List ο → τ → Prop
  | nil (q) : Runs astep q [] [] q
  | cons {q q' q'' c cs r rs} : astep q c r q' → Runs astep q' cs rs q'' →
      Runs astep q (c :: cs) (r :: rs) q''

/-- A result that was found by evaluation. -/
theorem exists_of_any {α : Type*} {o : Option α} {p : α → Bool} (h : o.any p = true) :
    ∃ x, o = some x ∧ p x = true := by
  cases o with
  | none => cases h
  | some x => exact ⟨x, rfl, h⟩

section Run

variable {step : σ → ι → Option (σ × ο)} {s s' : σ}

theorem run_cons_of_step {c : ι} {r : ο} (h : step s c = some (s', r)) (cs : List ι) :
    run step s (c :: cs) = (run step s' cs).map fun p => (p.1, r :: p.2) := by
  simp only [run, h]
  cases run step s' cs <;> rfl

variable {cs : List ι} {rs : List ο}

/-- A run is its first step and the run after it. -/
theorem run_cons_eq_some_iff {t : σ} {c : ι} :
    run step s (c :: cs) = some (t, rs) ↔ ∃ s' r rs', step s c = some (s', r) ∧
      run step s' cs = some (t, rs') ∧ rs = r :: rs' := by
  constructor
  · intro h
    cases hc : step s c with
    | none => simp only [run, hc] at h; cases h
    | some p =>
        rw [run_cons_of_step (r := p.2) hc] at h
        obtain ⟨q, hq, heq⟩ := Option.map_eq_some_iff.mp h
        cases heq
        exact ⟨p.1, p.2, q.2, rfl, hq, rfl⟩
  · rintro ⟨s', r, rs', hc, hrun, rfl⟩
    rw [run_cons_of_step hc, hrun]
    rfl

variable {P : σ → ι → Prop}

/-- A guard that every call meets. -/
theorem Guarded.of_forall (h : ∀ s c, P s c) (s : σ) (cs : List ι) : Guarded step P s cs := by
  induction cs generalizing s with
  | nil => trivial
  | cons c cs ih => exact ⟨h s c, fun s' _ _ => ih s'⟩

variable {I : σ → Prop}

/-- A guard that an invariant of the steps implies. -/
theorem Guarded.of_invariant (hP : ∀ s c, I s → P s c)
    (hI : ∀ s c s' r, I s → step s c = some (s', r) → I s') (hs : I s) (cs : List ι) :
    Guarded step P s cs := by
  induction cs generalizing s with
  | nil => trivial
  | cons c cs ih => exact ⟨hP s c hs, fun s' r hstep => ih (hI s c s' r hs hstep)⟩

variable {cs' : List ι}

theorem Guarded.append_left (h : Guarded step P s (cs ++ cs')) : Guarded step P s cs := by
  induction cs generalizing s with
  | nil => trivial
  | cons c cs ih => exact ⟨h.1, fun s' r hs => ih (h.2 s' r hs)⟩

theorem Guarded.append_right (h : Guarded step P s (cs ++ cs'))
    (hrun : run step s cs = some (s', rs)) : Guarded step P s' cs' := by
  induction cs generalizing s rs with
  | nil =>
      cases hrun
      exact h
  | cons c cs ih =>
      obtain ⟨s₁, r, rs', hc, hrest, -⟩ := run_cons_eq_some_iff.mp hrun
      exact ih (h.2 s₁ r hc) hrest

/-- A run over a call in its middle: the runs before and after it and its own step. -/
theorem run_middle {t : σ} {c : ι} (h : run step s (cs ++ c :: cs') = some (t, rs)) :
    ∃ s₁ rs₁ s₂ r, run step s cs = some (s₁, rs₁) ∧ step s₁ c = some (s₂, r) ∧ r ∈ rs := by
  induction cs generalizing s rs with
  | nil =>
      obtain ⟨s₂, r, rs', hc, -, rfl⟩ := run_cons_eq_some_iff.mp h
      exact ⟨s, [], s₂, r, rfl, hc, mem_cons_self⟩
  | cons d cs ih =>
      obtain ⟨s', r', rs', hd, hrest, rfl⟩ := run_cons_eq_some_iff.mp h
      obtain ⟨s₁, rs₁, s₂, r, hrun, hstep, hr⟩ := ih hrest
      exact ⟨s₁, r' :: rs₁, s₂, r, run_cons_eq_some_iff.mpr ⟨s', r', rs₁, hd, hrun, rfl⟩, hstep,
        mem_cons_of_mem _ hr⟩

/-- **Invariants lift to runs**: what every step preserves holds in the state reached, and
what every step says of its reply holds of all replies. -/
theorem run_invariant {Q : ο → Prop}
    (hstep : ∀ s c s' r, step s c = some (s', r) → I s → I s' ∧ Q r)
    (h : run step s cs = some (s', rs)) (hs : I s) : I s' ∧ ∀ r ∈ rs, Q r := by
  induction cs generalizing s rs with
  | nil =>
      cases h
      exact ⟨hs, by simp⟩
  | cons c cs ih =>
      obtain ⟨s₁, r, rs', hc, hrun, rfl⟩ := run_cons_eq_some_iff.mp h
      obtain ⟨hI, hQ⟩ := hstep s c s₁ r hc hs
      obtain ⟨hI', hQ'⟩ := ih hrun hI
      exact ⟨hI', forall_mem_cons.mpr ⟨hQ, hQ'⟩⟩

/-- **Histories**: what every step preserves of the state, the calls and the replies so far
holds of the state reached, all calls and all replies. -/
theorem run_record {I : σ → List ι → List ο → Prop}
    (hstep : ∀ s c s' r past log, step s c = some (s', r) → I s past log →
      I s' (past ++ [c]) (log ++ [r]))
    (past : List ι) (log : List ο) (h : run step s cs = some (s', rs)) (hs : I s past log) :
    I s' (past ++ cs) (log ++ rs) := by
  induction cs generalizing s past log rs with
  | nil =>
      cases h
      rwa [append_nil, append_nil]
  | cons c cs ih =>
      obtain ⟨s₁, r, rs', hc, hrun, rfl⟩ := run_cons_eq_some_iff.mp h
      rw [append_cons past, append_cons log]
      exact ih _ _ hrun (hstep s c s₁ r past log hc hs)

/-- Of the replies so far. -/
theorem run_history {I : σ → List ο → Prop}
    (hstep : ∀ s c s' r log, step s c = some (s', r) → I s log → I s' (log ++ [r])) {log : List ο}
    (h : run step s cs = some (s', rs)) (hs : I s log) : I s' (log ++ rs) :=
  run_record (I := fun s _ log => I s log) (fun s c s' r _ log => hstep s c s' r log) [] log h hs

/-- Of the calls so far. -/
theorem run_calls {I : σ → List ι → Prop}
    (hstep : ∀ s c s' r past, step s c = some (s', r) → I s past → I s' (past ++ [c]))
    {past : List ι} (h : run step s cs = some (s', rs)) (hs : I s past) : I s' (past ++ cs) :=
  run_record (I := fun s past _ => I s past) (fun s c s' r past _ => hstep s c s' r past) past [] h
    hs

/-- **Step-wise simulation lifts to runs**: when every guarded step from related
states succeeds, is matched by the abstract machine with the same reply and ends in
related states, every guarded run does. -/
theorem run_simulates {R : σ → τ → Prop} {astep : τ → ι → ο → τ → Prop}
    (hstep : ∀ s q c, R s q → P s c → ∃ s' r q', step s c = some (s', r) ∧ astep q c r q' ∧ R s' q')
    (cs : List ι) (s : σ) (q : τ) (hR : R s q) (hP : Guarded step P s cs) :
    ∃ s' rs q', run step s cs = some (s', rs) ∧ Runs astep q cs rs q' ∧ R s' q' := by
  induction cs generalizing s q with
  | nil => exact ⟨s, [], q, rfl, Runs.nil q, hR⟩
  | cons c cs ih =>
      obtain ⟨hc, hrest⟩ := hP
      obtain ⟨s₁, r, q₁, hs, ha, hR₁⟩ := hstep s q c hR hc
      obtain ⟨s', rs, q', hrun, hruns, hR'⟩ := ih s₁ q₁ hR₁ (hrest s₁ r hs)
      exact ⟨s', r :: rs, q', run_cons_eq_some_iff.mpr ⟨s₁, r, rs, hs, hrun, rfl⟩,
        Runs.cons ha hruns, hR'⟩

/-- A guarded run from an invariant that makes every guarded step succeed, with the replies so
far. -/
theorem run_guarded_history {I : σ → List ο → Prop}
    (hstep : ∀ s c log, I s log → P s c → ∃ s' r, step s c = some (s', r) ∧ I s' (log ++ [r]))
    {l : List ο} (hs : I s l) (hP : Guarded step P s cs) :
    ∃ s' rs, run step s cs = some (s', rs) ∧ I s' (l ++ rs) := by
  induction cs generalizing s l with
  | nil => exact ⟨s, [], rfl, by rwa [append_nil]⟩
  | cons c cs ih =>
      obtain ⟨hc, hrest⟩ := hP
      obtain ⟨s₁, r, hstep₁, hs₁⟩ := hstep s c l hs hc
      obtain ⟨s', rs, hrun, hs'⟩ := ih hs₁ (hrest s₁ r hstep₁)
      exact ⟨s', r :: rs, run_cons_eq_some_iff.mpr ⟨s₁, r, rs, hstep₁, hrun, rfl⟩, by
        rwa [append_cons]⟩

/-- Of the state alone. -/
theorem run_guarded (hstep : ∀ s c, I s → P s c → ∃ s' r, step s c = some (s', r) ∧ I s') (hs : I s)
    (hP : Guarded step P s cs) : ∃ s' rs, run step s cs = some (s', rs) ∧ I s' :=
  run_guarded_history (I := fun s _ => I s) (l := []) (fun s c _ => hstep s c) hs hP

/-- A run of two parts. -/
theorem run_append {t : σ} (h : run step s (cs ++ cs') = some (t, rs)) :
    ∃ s₁ rs₁ rs₂, run step s cs = some (s₁, rs₁) ∧ run step s₁ cs' = some (t, rs₂) ∧
      rs = rs₁ ++ rs₂ := by
  induction cs generalizing s rs with
  | nil => exact ⟨s, [], rs, rfl, h, rfl⟩
  | cons c cs ih =>
      obtain ⟨s', r, rs', hc, hrest, rfl⟩ := run_cons_eq_some_iff.mp h
      obtain ⟨s₁, rs₁, rs₂, hrun, hrun', rfl⟩ := ih hrest
      exact ⟨s₁, r :: rs₁, rs₂, run_cons_eq_some_iff.mpr ⟨s', r, rs₁, hc, hrun, rfl⟩, hrun', rfl⟩

/-- What every guarded step preserves of the state and the replies so far holds at the end of a
guarded run. -/
theorem guarded_history {I : σ → List ο → Prop}
    (hstep : ∀ s c s' r log, I s log → step s c = some (s', r) → P s c → I s' (log ++ [r]))
    {l : List ο} (hs : I s l) (hP : Guarded step P s cs) (h : run step s cs = some (s', rs)) :
    I s' (l ++ rs) := by
  induction cs generalizing s l rs with
  | nil =>
      cases h
      rwa [append_nil]
  | cons c cs ih =>
      obtain ⟨s₁, r, rs', hc, hrun, rfl⟩ := run_cons_eq_some_iff.mp h
      rw [append_cons]
      exact ih (hstep s c s₁ r l hs hc hP.1) (hP.2 s₁ r hc) hrun

/-- Of the state alone. -/
theorem guarded_invariant (hstep : ∀ s c s' r, I s → step s c = some (s', r) → P s c → I s')
    (hs : I s) (hP : Guarded step P s cs) (h : run step s cs = some (s', rs)) : I s' :=
  guarded_history (I := fun s _ => I s) (fun s c s' r _ => hstep s c s' r) (l := []) hs hP h

/-- **When a property holds all along**: from states and replies of `I`, a step that meets the
guard leads back to `I`, one that does not leads out of `G`. Then `G` holds of every state a run
passes through, with the replies so far, if and only if all its steps meet the guard. -/
theorem run_iff_guarded_log {I G : σ → List ο → Prop} (hG : ∀ s log, I s log → G s log)
    (hmeets : ∀ s c s' r log, I s log → step s c = some (s', r) → P s c → I s' (log ++ [r]))
    (hbreaks : ∀ s c s' r log, I s log → step s c = some (s', r) → ¬ P s c → ¬ G s' (log ++ [r]))
    (log : List ο) (hs : I s log) :
    (∀ pre, pre <+: cs → ∀ s' rs, run step s pre = some (s', rs) → G s' (log ++ rs)) ↔
      Guarded step (fun s c => (step s c).isSome → P s c) s cs := by
  constructor
  · intro h
    induction cs generalizing s log with
    | nil => trivial
    | cons c cs ih =>
        have hc : ∀ s' r, step s c = some (s', r) → P s c := by
          intro s' r hstep
          by_contra hnot
          refine hbreaks s c s' r log hs hstep hnot (h [c] ⟨cs, rfl⟩ s' [r] ?_)
          rw [run_cons_of_step hstep]
          rfl
        refine ⟨fun hsome => ?_, fun s' r hstep => ?_⟩
        · obtain ⟨p, hp⟩ := Option.isSome_iff_exists.mp hsome
          exact hc p.1 p.2 hp
        · refine ih _ (hmeets s c s' r log hs hstep (hc s' r hstep)) fun pre hpre t rs hrun => ?_
          rw [← append_cons]
          exact h (c :: pre) (cons_prefix_cons.mpr ⟨rfl, hpre⟩) t (r :: rs)
            (run_cons_eq_some_iff.mpr ⟨s', r, rs, hstep, hrun, rfl⟩)
  · rintro h pre ⟨rest, rfl⟩ t rs hrun
    refine hG t _ ?_
    replace h := h.append_left
    induction pre generalizing s log rs with
    | nil =>
        cases hrun
        rwa [append_nil]
    | cons c pre ih =>
        obtain ⟨s₁, r, rs', hc, hrest, rfl⟩ := run_cons_eq_some_iff.mp hrun
        rw [append_cons]
        exact ih _ (hmeets s c s₁ r log hs hc (h.1 (by rw [hc]; rfl))) rs' hrest (h.2 s₁ r hc)

/-- The same of the states alone. -/
theorem run_iff_guarded {G : σ → Prop} (hG : ∀ s, I s → G s)
    (hmeets : ∀ s c s' r, I s → step s c = some (s', r) → P s c → I s')
    (hbreaks : ∀ s c s' r, I s → step s c = some (s', r) → ¬ P s c → ¬ G s') (hs : I s) :
    (∀ pre, pre <+: cs → ∀ s' rs, run step s pre = some (s', rs) → G s') ↔
      Guarded step (fun s c => (step s c).isSome → P s c) s cs :=
  run_iff_guarded_log (I := fun s _ => I s) (G := fun s _ => G s)
    (fun s _ => hG s) (fun s c s' r _ => hmeets s c s' r) (fun s c s' r _ => hbreaks s c s' r) [] hs

/-- **Two readings of a run**: where a property comes to a condition in the states of `J`, and a
step from one that meets the condition stays in `J`, the property holds all along if and only if
the condition does. -/
theorem run_forall_iff {J G C : σ → Prop} (hiff : ∀ s, J s → (G s ↔ C s))
    (hJ : ∀ s c s' r, J s → C s → step s c = some (s', r) → J s') (hs : J s) :
    (∀ pre, pre <+: cs → ∀ s' rs, run step s pre = some (s', rs) → G s') ↔
      ∀ pre, pre <+: cs → ∀ s' rs, run step s pre = some (s', rs) → C s' := by
  induction cs generalizing s with
  | nil =>
      constructor
      all_goals
        intro h pre hpre s' rs hrun
        have hnow := h pre hpre s' rs hrun
        cases prefix_nil.mp hpre
        cases hrun
        first | exact (hiff s hs).mp hnow | exact (hiff s hs).mpr hnow
  | cons c cs ih =>
      -- the rest of the run, from the state after the first call
      have hrest : ∀ K : σ → Prop,
          (∀ pre, pre <+: c :: cs → ∀ s' rs, run step s pre = some (s', rs) → K s') ↔
            K s ∧ ∀ s₁ r, step s c = some (s₁, r) →
              ∀ pre, pre <+: cs → ∀ s' rs, run step s₁ pre = some (s', rs) → K s' := by
        intro K
        constructor
        · refine fun h => ⟨h [] nil_prefix s [] rfl, fun s₁ r hstep pre hpre s' rs hrun => ?_⟩
          exact h (c :: pre) (cons_prefix_cons.mpr ⟨rfl, hpre⟩) s' (r :: rs)
            (run_cons_eq_some_iff.mpr ⟨s₁, r, rs, hstep, hrun, rfl⟩)
        · rintro ⟨hnow, h⟩ pre hpre s' rs hrun
          cases pre with
          | nil =>
              cases hrun
              exact hnow
          | cons d pre =>
              obtain ⟨rfl, hpre'⟩ := cons_prefix_cons.mp hpre
              obtain ⟨s₁, r, rs', hstep, hrest, rfl⟩ := run_cons_eq_some_iff.mp hrun
              exact h s₁ r hstep pre hpre' s' rs' hrest
      rw [hrest G, hrest C, hiff s hs]
      refine and_congr_right fun hC => forall_congr' fun s₁ => forall₂_congr fun r hstep => ?_
      exact ih (hJ s c s₁ r hs hC hstep)

/-- Every call of the run has a next state, and the transition to it is one of `T`. -/
def AllSteps (step : σ → ι → Option (σ × ο)) (T : σ → ι → σ → Prop) : σ → List ι → Prop
  | _, [] => True
  | s, c :: cs => ∃ s' r, step s c = some (s', r) ∧ T s c s' ∧ AllSteps step T s' cs

/-- **When every transition is good**: from states of `I`, a call that meets the guard succeeds
with a transition of `T` back to `I`, one that does not fails or has another transition. Then
all steps of a run are good if and only if all its calls meet the guard. -/
theorem allSteps_iff_guarded {T : σ → ι → σ → Prop}
    (hmeets : ∀ s c, I s → P s c → ∃ s' r, step s c = some (s', r) ∧ T s c s' ∧ I s')
    (hbreaks : ∀ s c s' r, I s → ¬ P s c → step s c = some (s', r) → ¬ T s c s') (hs : I s) :
    AllSteps step T s cs ↔ Guarded step P s cs := by
  induction cs generalizing s with
  | nil => exact Iff.rfl
  | cons c cs ih =>
      constructor
      · rintro ⟨s₁, r, hstep, hT, hrest⟩
        have hc : P s c := by
          by_contra hnot
          exact hbreaks s c s₁ r hs hnot hstep hT
        refine ⟨hc, fun s' r' hstep' => ?_⟩
        obtain ⟨s₂, r₂, hstep₂, -, hs₂⟩ := hmeets s c hs hc
        cases hstep.symm.trans hstep₂
        cases hstep.symm.trans hstep'
        exact (ih hs₂).mp hrest
      · rintro ⟨hc, hrest⟩
        obtain ⟨s', r, hstep, hT, hs'⟩ := hmeets s c hs hc
        exact ⟨s', r, hstep, hT, (ih hs').mpr (hrest s' r hstep)⟩

end Run

end V2I.Machine
