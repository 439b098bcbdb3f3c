import Mathlib.Data.List.Induction
import Mathlib.Tactic.NormNum

/-!
# V2I.Lib.Visit

Loops over a `std::map` that, for the entry they are at, change its value or erase it,
and carry a state along. The map is a `Std.ExtTreeMap`; the loop visits its entries in
the order of their keys and stops without a result when a step has none.
-/

namespace V2I

open Std List

/-- What relates the two ends of every step relates the two ends of a loop. -/
theorem foldlM_relates {α β : Type*} {R : α → α → Prop} (hrefl : ∀ a, R a a)
    (htrans : ∀ a b c, R a b → R b c → R a c) {f : α → β → Option α}
    (hf : ∀ a x a', f a x = some a' → R a a') {l : List β} {a a' : α}
    (h : l.foldlM f a = some a') : R a a' := by
  induction l generalizing a with
  | nil =>
      cases h
      exact hrefl _
  | cons x l ih =>
      rw [foldlM_cons] at h
      obtain ⟨b, hb, h⟩ := Option.bind_eq_some_iff.mp h
      exact htrans _ b _ (hf _ x b hb) (ih h)

variable {κ ν σ : Type*} [Ord κ]

/-- One entry: `none` as the new value erases it. -/
def visitStep [TransOrd κ] (f : σ → κ → ν → Option (σ × Option ν)) (acc : σ × ExtTreeMap κ ν)
    (e : κ × ν) : Option (σ × ExtTreeMap κ ν) :=
  match f acc.1 e.1 e.2 with
  | none => none
  | some (s, none) => some (s, acc.2.erase e.1)
  | some (s, some v) => some (s, acc.2.insert e.1 v)

/-- The loop over all entries. -/
def visitM [TransOrd κ] (f : σ → κ → ν → Option (σ × Option ν)) (s : σ) (t : ExtTreeMap κ ν) :
    Option (σ × ExtTreeMap κ ν) :=
  t.toList.foldlM (visitStep f) (s, t)

variable [TransOrd κ] [LawfulEqOrd κ] {f : σ → κ → ν → Option (σ × Option ν)} {t : ExtTreeMap κ ν}

/-- The entries after an insertion. -/
theorem getElem?_insert_eq_some {k k' : κ} {v v' : ν} :
    (t.insert k v)[k']? = some v' ↔ (k' = k ∧ v' = v) ∨ (k' ≠ k ∧ t[k']? = some v') := by
  rw [ExtTreeMap.getElem?_insert]
  by_cases heq : k = k'
  · subst heq
    simp [eq_comm]
  · simp [heq, Ne.symm heq]

variable {acc' acc : σ × ExtTreeMap κ ν}

/-- A step sets the entry of its key and leaves the others alone. -/
theorem visitStep_eq_some {e : κ × ν} (h : visitStep f acc e = some acc') :
    ∃ r, f acc.1 e.1 e.2 = some (acc'.1, r) ∧ acc'.2[e.1]? = r ∧
      ∀ k, k ≠ e.1 → acc'.2[k]? = acc.2[k]? := by
  unfold visitStep at h
  split at h
  · cases h
  · next s hf =>
      cases h
      refine ⟨none, hf, by simp, fun k hk => ?_⟩
      rw [ExtTreeMap.getElem?_erase]
      simp [Ne.symm hk]
  · next s v hf =>
      cases h
      refine ⟨some v, hf, by simp, fun k hk => ?_⟩
      rw [ExtTreeMap.getElem?_insert]
      simp [Ne.symm hk]

omit [LawfulEqOrd κ] in
theorem visitStep_carried {e : κ × ν} (h : visitStep f acc e = some acc') :
    ∃ r, f acc.1 e.1 e.2 = some (acc'.1, r) := by
  unfold visitStep at h
  grind

theorem foldlM_visitStep {l : List (κ × ν)} (hl : l.Pairwise fun a b => a.1 ≠ b.1)
    (h : l.foldlM (visitStep f) acc = some acc') :
    (∀ k, k ∉ l.map Prod.fst → acc'.2[k]? = acc.2[k]?) ∧
      ∀ k v, (k, v) ∈ l → ∃ s s' r, f s k v = some (s', r) ∧ acc'.2[k]? = r := by
  induction l generalizing acc with
  | nil =>
      cases h
      exact ⟨fun _ _ => rfl, by simp⟩
  | cons e l ih =>
      obtain ⟨hne, hl'⟩ := pairwise_cons.mp hl
      rw [foldlM_cons] at h
      cases hstep : visitStep f acc e with
      | none => rw [hstep] at h; cases h
      | some acc₁ =>
          rw [hstep] at h
          obtain ⟨hout, hin⟩ := ih hl' h
          obtain ⟨r, hf, hat, hother⟩ := visitStep_eq_some hstep
          have hnot : e.1 ∉ l.map Prod.fst := by
            intro hmem
            obtain ⟨b, hb, heq⟩ := mem_map.mp hmem
            exact hne b hb heq.symm
          constructor
          · intro k hk
            rw [map_cons, mem_cons, not_or] at hk
            rw [hout k hk.2, hother k hk.1]
          · intro k v hmem
            rcases mem_cons.mp hmem with rfl | hmem
            · exact ⟨acc.1, acc₁.1, r, hf, by rw [hout _ hnot, hat]⟩
            · exact hin k v hmem

omit [LawfulEqOrd κ] in
theorem distinct_toList (t : ExtTreeMap κ ν) : t.toList.Pairwise fun a b => a.1 ≠ b.1 := by
  refine t.distinct_keys_toList.imp fun h heq => h ?_
  rw [heq]
  exact compare_self

variable {t' : ExtTreeMap κ ν}

/-- **Entries of the result**: nothing is added, and an entry is what the step at its key
made of it. -/
theorem visitM_getElem? {s s' : σ} (h : visitM f s t = some (s', t')) (k : κ) :
    (t[k]? = none → t'[k]? = none) ∧
      ∀ v, t[k]? = some v → ∃ s₀ s₁ r, f s₀ k v = some (s₁, r) ∧ t'[k]? = r := by
  obtain ⟨hout, hin⟩ := foldlM_visitStep (distinct_toList t) h
  constructor
  · intro hk
    rw [hout k, hk]
    rw [ExtTreeMap.map_fst_toList_eq_keys, ExtTreeMap.mem_keys]
    exact fun hmem => by simp [ExtTreeMap.mem_iff_isSome_getElem?, hk] at hmem
  · intro v hv
    exact hin k v (ExtTreeMap.mem_toList_iff_getElem?_eq_some.mpr hv)

/-- An entry of the result was there before, and the step at its key has left it. -/
theorem exists_step_of_visitM {s s' : σ} (h : visitM f s t = some (s', t')) {k : κ} {v' : ν}
    (hv' : t'[k]? = some v') : ∃ v s₀ s₁, t[k]? = some v ∧ f s₀ k v = some (s₁, some v') := by
  obtain ⟨hnone, hsome⟩ := visitM_getElem? h k
  cases hk : t[k]? with
  | none => rw [hnone hk] at hv'; cases hv'
  | some v =>
      obtain ⟨s₀, s₁, r, hfv, hr⟩ := hsome v hk
      rw [hv'] at hr
      subst hr
      exact ⟨v, s₀, s₁, rfl, hfv⟩

omit [LawfulEqOrd κ] in
theorem foldlM_invariant {I : σ → Prop} {l : List (κ × ν)}
    (hstep : ∀ s e s' r, e ∈ l → f s e.1 e.2 = some (s', r) → I s → I s')
    (h : l.foldlM (visitStep f) acc = some acc') (hacc : I acc.1) : I acc'.1 := by
  induction l generalizing acc with
  | nil =>
      cases h
      exact hacc
  | cons e l ih =>
      rw [foldlM_cons] at h
      cases hst : visitStep f acc e with
      | none => rw [hst] at h; cases h
      | some acc₁ =>
          rw [hst] at h
          obtain ⟨r, hf⟩ := visitStep_carried hst
          refine ih (fun s e' s' r he' => hstep s e' s' r (mem_cons_of_mem _ he')) h ?_
          exact hstep _ e _ r mem_cons_self hf hacc

/-- **The carried state at one key**: `I` holds until the step at `k`, which turns it into
`J`, and `J` holds from then on. -/
theorem visitM_at {I J : σ → Prop} {k : κ} {v : ν}
    (hI : ∀ s k' v' s' r, k' ≠ k → f s k' v' = some (s', r) → I s → I s')
    (hk : ∀ s s' r, f s k v = some (s', r) → I s → J s')
    (hJ : ∀ s k' v' s' r, k' ≠ k → f s k' v' = some (s', r) → J s → J s') {s s' : σ}
    (h : visitM f s t = some (s', t')) (hv : t[k]? = some v) (hs : I s) : J s' := by
  have hdist := distinct_toList t
  unfold visitM at h
  obtain ⟨l₁, l₂, hl⟩ := append_of_mem (ExtTreeMap.mem_toList_iff_getElem?_eq_some.mpr hv)
  rw [hl] at h hdist
  obtain ⟨-, hdist₂, hne⟩ := pairwise_append.mp hdist
  rw [foldlM_append] at h
  obtain ⟨acc₁, h₁, h₂⟩ := Option.bind_eq_some_iff.mp h
  rw [foldlM_cons] at h₂
  obtain ⟨acc₂, hat, h₂⟩ := Option.bind_eq_some_iff.mp h₂
  obtain ⟨r, hf⟩ := visitStep_carried hat
  have hI₁ : I acc₁.1 := foldlM_invariant
    (fun s e s' r he => hI s e.1 e.2 s' r (hne e he _ mem_cons_self)) h₁ hs
  exact foldlM_invariant
    (fun s e s' r he => hJ s e.1 e.2 s' r ((pairwise_cons.mp hdist₂).1 e he).symm) h₂
    (hk _ _ r hf hI₁)

omit [LawfulEqOrd κ] in
/-- **Loops that change more than the map**: `Q s e` says that the entry `e` is still to be
visited in the state `s`; a step may use it for its own entry and keeps it for the others. -/
theorem foldl_toList_invariant {τ : Type*} {g : τ → κ × ν → τ} {I : τ → Prop}
    {Q : τ → κ × ν → Prop} (hstep : ∀ s e, I s → Q s e → I (g s e))
    (hother : ∀ s e e', e'.1 ≠ e.1 → Q s e' → Q (g s e) e') {s : τ} (t : ExtTreeMap κ ν)
    (hs : I s) (hQ : ∀ e ∈ t.toList, Q s e) : I (t.toList.foldl g s) := by
  have hdist := distinct_toList t
  generalize t.toList = l at hQ hdist
  induction l generalizing s with
  | nil => exact hs
  | cons e l ih =>
      obtain ⟨hne, hl⟩ := pairwise_cons.mp hdist
      obtain ⟨he, hQl⟩ := forall_mem_cons.mp hQ
      rw [foldl_cons]
      exact ih (hstep s e hs he) (fun e' h' => hother s e e' (hne e' h').symm (hQl e' h')) hl

/-- **A loop that writes another map**, each entry from what is there at its key. -/
theorem getElem?_foldl_toList_insert {μ : Type*} {g : Option μ → ν → μ} (t : ExtTreeMap κ ν)
    (m : ExtTreeMap κ μ) (k : κ) :
    (t.toList.foldl (fun m e => m.insert e.1 (g m[e.1]? e.2)) m)[k]? =
      (t[k]?.map (g m[k]?)).or m[k]? := by
  have hdist := distinct_toList t
  have hget : ∀ v, t[k]? = some v ↔ (k, v) ∈ t.toList :=
    fun v => ExtTreeMap.mem_toList_iff_getElem?_eq_some.symm
  generalize t[k]? = found at hget ⊢
  generalize t.toList = l at hdist hget
  induction l generalizing m found with
  | nil =>
      have hnone : found = none := Option.eq_none_iff_forall_ne_some.mpr fun v hv => by
        simpa using (hget v).mp hv
      rw [hnone]
      rfl
  | cons e l ih =>
      obtain ⟨hne, hl⟩ := pairwise_cons.mp hdist
      rw [foldl_cons]
      by_cases hk : e.1 = k
      · -- no later entry has this key
        have hfound : found = some e.2 := (hget e.2).mpr (by rw [← hk]; exact mem_cons_self)
        have hlater : ∀ v, none = some v ↔ (k, v) ∈ l :=
          fun v => ⟨fun h => (nomatch h), fun h => absurd hk (hne (k, v) h)⟩
        rw [ih _ none hl hlater, hfound, ← hk, ExtTreeMap.getElem?_insert_self]
        rfl
      · rw [ih _ found hl fun v => ?_, ExtTreeMap.getElem?_insert, if_neg (by simpa using hk)]
        rw [hget, mem_cons, or_iff_right]
        exact fun heq => hk (congrArg Prod.fst heq).symm

/-- What a loop of insertions leaves at a key: the last one that was made there. -/
theorem getElem?_foldl_insert {α : Type*} [DecidableEq κ] (key : α → κ) (val : α → ν)
    (l : List α) (m : ExtTreeMap κ ν) (k : κ) :
    (l.foldl (fun m a => m.insert (key a) (val a)) m)[k]? =
      ((l.filter fun a => key a = k).getLast?.map val).or m[k]? := by
  induction l using reverseRecOn with
  | nil => rfl
  | append_singleton l a ih =>
      rw [foldl_append, foldl_cons, foldl_nil, ExtTreeMap.getElem?_insert, filter_append, ih]
      by_cases hk : key a = k
      · simp [hk]
      · simp [hk]

end V2I
