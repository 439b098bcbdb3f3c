import Mathlib.Data.List.TakeWhile

/-!
# V2I.Lib.Scanner

Functions that cut something off the beginning of a list. A scanner is local when it looks at no
more of what it leaves than the first element, and takes all neutral elements for the same: then it
cuts the same off in front of anything that begins alike.
-/

namespace V2I.Scanner

open List

variable {α : Type*}

/-- Nothing, or a neutral element, is next. -/
def Neutral (neutral : α → Bool) (t : List α) : Prop := ∀ c ∈ t.head?, neutral c

/-- The lists begin alike. -/
def SameNext (neutral : α → Bool) (t t' : List α) : Prop :=
  t.head? = t'.head? ∨ Neutral neutral t ∧ Neutral neutral t'

structure Local (neutral : α → Bool) (f : List α → List α × List α) : Prop where
  append : ∀ t, (f t).1 ++ (f t).2 = t
  congr : ∀ t r, SameNext neutral (f t).2 r → f ((f t).1 ++ r) = ((f t).1, r)

/-- Nothing is cut off. -/
def nothing (t : List α) : List α × List α := ([], t)

/-- The elements with a property. -/
def span (p : α → Bool) (t : List α) : List α × List α := (t.takeWhile p, t.dropWhile p)

/-- An element with a property and what `f` cuts off behind it, or nothing. -/
def opt (p : α → Bool) (f : List α → List α × List α) : List α → List α × List α
  | [] => ([], [])
  | c :: t => if p c then (c :: (f t).1, (f t).2) else ([], c :: t)

/-- One scanner after another. -/
def seq (f g : List α → List α × List α) (t : List α) : List α × List α :=
  ((f t).1 ++ (g (f t).2).1, (g (f t).2).2)

variable {neutral : α → Bool} {p : α → Bool} {f g : List α → List α × List α}

theorem SameNext.trans {t t' t'' : List α} (h : SameNext neutral t t')
    (h' : SameNext neutral t' t'') : SameNext neutral t t'' := by
  rcases h with h | ⟨ht, ht'⟩ <;> rcases h' with h' | ⟨ht', ht''⟩
  · exact .inl (h.trans h')
  · refine .inr ⟨?_, ht''⟩
    rw [Neutral, h]
    exact ht'
  · refine .inr ⟨ht, ?_⟩
    rw [Neutral, ← h']
    exact ht'
  · exact .inr ⟨ht, ht''⟩

/-- A list begins like the list that goes on with a neutral element. -/
theorem SameNext.append_cons {c : α} (hc : neutral c) (t t' : List α) :
    SameNext neutral t (t ++ c :: t') := by
  cases t with
  | nil => exact .inr ⟨by simp [Neutral], by simpa [Neutral] using hc⟩
  | cons d t => exact .inl rfl

theorem SameNext.head_eq_false (hp : ∀ c, neutral c → p c = false) {t t' : List α}
    (h : SameNext neutral t t') (ht : ∀ c ∈ t.head?, p c = false) :
    ∀ c ∈ t'.head?, p c = false := by
  rcases h with h | ⟨-, h⟩
  · rwa [← h]
  · exact fun c hc => hp c (h c hc)

theorem Local.nothing : Local neutral (nothing : List α → _) where
  append _ := rfl
  congr _ _ _ := rfl

theorem Local.span (hp : ∀ c, neutral c → p c = false) : Local neutral (span p) where
  append t := takeWhile_append_dropWhile
  congr t r h := by
    induction t with
    | nil =>
      have hr := h.head_eq_false hp (by simp [Scanner.span])
      cases r with
      | nil => rfl
      | cons c r => simp [Scanner.span, hr c rfl]
    | cons c t ih =>
      by_cases hc : p c = true
      · simp only [Scanner.span, takeWhile_cons_of_pos hc, dropWhile_cons_of_pos hc]
          at h ih ⊢
        have hih := Prod.mk.inj (ih h)
        rw [cons_append, takeWhile_cons_of_pos hc, dropWhile_cons_of_pos hc, hih.1, hih.2]
      · simp only [Scanner.span, takeWhile_cons_of_neg hc, dropWhile_cons_of_neg hc]
          at h ⊢
        have hr := h.head_eq_false hp (by simpa using hc)
        cases r with
        | nil => rfl
        | cons d r => simp [hr d rfl]

theorem Local.opt (hp : ∀ c, neutral c → p c = false) (hf : Local neutral f) :
    Local neutral (opt p f) where
  append t := by
    cases t with
    | nil => rfl
    | cons c t =>
      rw [Scanner.opt]
      split
      · rw [cons_append, hf.append]
      · rfl
  congr t r h := by
    cases t with
    | nil =>
      have hr := h.head_eq_false hp (by simp [Scanner.opt])
      cases r with
      | nil => rfl
      | cons c r => exact if_neg (by simp [hr c rfl])
    | cons c t =>
      rw [Scanner.opt] at h ⊢
      split at h
      · next hc =>
        rw [if_pos hc, cons_append, Scanner.opt, if_pos hc, hf.congr t r h]
      · next hc =>
        rw [if_neg hc]
        have hr := h.head_eq_false hp (by simpa using hc)
        cases r with
        | nil => rfl
        | cons c r => exact if_neg (by simp [hr c rfl])

theorem Local.seq (hf : Local neutral f) (hg : Local neutral g) : Local neutral (seq f g) where
  append t := by rw [Scanner.seq, append_assoc, hg.append, hf.append]
  congr t r h := by
    have hg' := hg.congr _ r h
    have hnext : SameNext neutral (f t).2 ((g (f t).2).1 ++ r) := by
      have happ := hg.append (f t).2
      cases hs : (g (f t).2).1 with
      | nil =>
        rw [hs, nil_append] at happ
        rw [nil_append, ← happ]
        exact h
      | cons c s =>
        rw [hs] at happ
        exact .inl (by rw [← happ]; rfl)
    rw [Scanner.seq, Scanner.seq, append_assoc, hf.congr t _ hnext, hg']

/-! ## What is not cut off -/

/-- The scanner never cuts the element off. -/
def Avoids (a : α) (f : List α → List α × List α) : Prop := ∀ t, a ∉ (f t).1

variable {a : α}

theorem Avoids.nothing : Avoids a nothing := fun _ => not_mem_nil

theorem Avoids.span (ha : p a = false) : Avoids a (span p) := fun _ h =>
  Bool.false_ne_true (ha.symm.trans (mem_takeWhile_imp h))

theorem Avoids.opt (ha : p a = false) (hf : Avoids a f) : Avoids a (opt p f) := by
  intro t h
  cases t with
  | nil => cases h
  | cons c t =>
    rw [Scanner.opt] at h
    split at h
    · next hc =>
      rcases mem_cons.mp h with rfl | h
      · exact Bool.false_ne_true (ha.symm.trans hc)
      · exact hf t h
    · cases h

theorem Avoids.seq (hf : Avoids a f) (hg : Avoids a g) : Avoids a (seq f g) := fun t h =>
  (mem_append.mp h).elim (hf t) (hg _)

end V2I.Scanner
