import Mathlib.Algebra.Order.Ring.Nat
import Mathlib.Data.List.Basic
import Mathlib.Data.List.Induction

/-!
# V2I.Lib.Placement

Lists that absorb batches of items: an item of a batch is put at the end, or shares the place
of an item that was there before. Places are indices, and the items in them stay.
-/

namespace V2I

open List

variable {α : Type*} {close : α → α → Prop}

/-- A batch: `slot` is the place of each of its items, no two of which share one. -/
structure Placed (close : α → α → Prop) (before new after : List α) (slot : ℕ → ℕ) : Prop where
  grows : before <+: after
  size : after.length ≤ before.length + new.length
  inj : ∀ t t', t < new.length → t' < new.length → slot t = slot t' → t = t'
  added : ∀ t a, new[t]? = some a → before.length ≤ slot t → after[slot t]? = some a
  met : ∀ t a, new[t]? = some a → slot t < before.length →
    ∃ o, before[slot t]? = some o ∧ close o a
  onto : ∀ k, before.length ≤ k → k < after.length → ∃ t < new.length, slot t = k

/-- All batches: `start f` places were taken before the batch `f`, and `slot f` are the places
of its items. -/
structure Absorbed (close : α → α → Prop) (batches : List (List α)) (all : List α)
    (start : ℕ → ℕ) (slot : ℕ → ℕ → ℕ) : Prop where
  mono : Monotone start
  last : start batches.length = all.length
  size : all.length ≤ (batches.map List.length).sum
  within : ∀ f new t, batches[f]? = some new → t < new.length → slot f t < start (f + 1)
  inj : ∀ f new t t', batches[f]? = some new → t < new.length → t' < new.length →
    slot f t = slot f t' → t = t'
  added : ∀ f new t a, batches[f]? = some new → new[t]? = some a → start f ≤ slot f t →
    all[slot f t]? = some a
  met : ∀ f new t a, batches[f]? = some new → new[t]? = some a → slot f t < start f →
    ∃ o, all[slot f t]? = some o ∧ close o a
  onto : ∀ k < all.length, ∃ f new t, batches[f]? = some new ∧ t < new.length ∧ slot f t = k ∧
    start f ≤ k

theorem Absorbed.nil : Absorbed close [] [] (fun _ => 0) (fun _ _ => 0) where
  mono := monotone_const
  last := rfl
  size := le_rfl
  within _ _ _ h := by simp at h
  inj _ _ _ _ h := by simp at h
  added _ _ _ _ h := by simp at h
  met _ _ _ _ h := by simp at h
  onto _ h := by simp at h

theorem getElem?_append_singleton_eq_some {l : List α} {a b : α} {i : ℕ} :
    (l ++ [a])[i]? = some b ↔ (i < l.length ∧ l[i]? = some b) ∨ (i = l.length ∧ b = a) := by
  rcases lt_trichotomy i l.length with h | h | h
  · simp [getElem?_append_left h, h, h.ne]
  · subst h
    simp [eq_comm]
  · rw [getElem?_eq_none (by rw [length_append]; exact h)]
    simp [h.not_gt, h.ne']

variable {batches : List (List α)} {all : List α} {slot : ℕ → ℕ → ℕ}

/-- **One more batch.** -/
theorem Absorbed.append {new after : List α} {start : ℕ → ℕ} {s : ℕ → ℕ}
    (h : Absorbed close batches all start slot) (hp : Placed close all new after s) :
    Absorbed close (batches ++ [new]) after
      (fun f => if f ≤ batches.length then start f else after.length)
      (fun f => if f < batches.length then slot f else s) := by
  have hle : all.length ≤ after.length := hp.grows.length_le
  have hkeep : ∀ {k a}, all[k]? = some a → after[k]? = some a := fun hk => by
    obtain ⟨l, rfl⟩ := hp.grows
    rwa [getElem?_append_left (List.getElem?_eq_some_iff.mp hk).1]
  refine ⟨?_, ?_, ?_, ?_, ?_, ?_, ?_, ?_⟩
  · intro f f' hff
    dsimp only
    split_ifs with h₁ h₂
    · exact h.mono hff
    · exact (h.mono h₁).trans (h.last.le.trans hle)
    · omega
    · exact le_rfl
  · simp
  · have hsize := h.size
    have hnew := hp.size
    simp only [map_append, sum_append, map_cons, map_nil, sum_cons, sum_nil, Nat.add_zero]
    omega
  · intro f b t hb ht
    obtain ⟨hf, hb⟩ | ⟨rfl, rfl⟩ := getElem?_append_singleton_eq_some.mp hb
    · simpa [hf, Nat.succ_le_of_lt hf] using h.within f b t hb ht
    · obtain ⟨a, ha⟩ : ∃ a, b[t]? = some a := ⟨_, List.getElem?_eq_getElem ht⟩
      have hlt : s t < after.length := by
        by_cases hold : s t < all.length
        · exact hold.trans_le hle
        · exact (List.getElem?_eq_some_iff.mp (hp.added t a ha (not_lt.mp hold))).1
      simpa only [Nat.not_succ_le_self, lt_irrefl, if_false] using hlt
  · intro f b t t' hb ht ht' heq
    obtain ⟨hf, hb⟩ | ⟨rfl, rfl⟩ := getElem?_append_singleton_eq_some.mp hb
    · exact h.inj f b t t' hb ht ht' (by simpa [hf] using heq)
    · exact hp.inj t t' ht ht' (by simpa using heq)
  · intro f b t a hb ha hstart
    obtain ⟨hf, hb⟩ | ⟨rfl, rfl⟩ := getElem?_append_singleton_eq_some.mp hb
    · simp only [hf, hf.le, if_true] at hstart ⊢
      exact hkeep (h.added f b t a hb ha hstart)
    · simp only [le_refl, lt_irrefl, if_true, if_false, h.last] at hstart ⊢
      exact hp.added t a ha hstart
  · intro f b t a hb ha hstart
    obtain ⟨hf, hb⟩ | ⟨rfl, rfl⟩ := getElem?_append_singleton_eq_some.mp hb
    · simp only [hf, hf.le, if_true] at hstart ⊢
      obtain ⟨o, ho, hclose⟩ := h.met f b t a hb ha hstart
      exact ⟨o, hkeep ho, hclose⟩
    · simp only [le_refl, lt_irrefl, if_true, if_false, h.last] at hstart ⊢
      obtain ⟨o, ho, hclose⟩ := hp.met t a ha hstart
      exact ⟨o, hkeep ho, hclose⟩
  · intro k hk
    by_cases hold : k < all.length
    · obtain ⟨f, b, t, hb, ht, hslot, hstart⟩ := h.onto k hold
      have hf : f < batches.length := (List.getElem?_eq_some_iff.mp hb).1
      refine ⟨f, b, t, getElem?_append_singleton_eq_some.mpr (.inl ⟨hf, hb⟩), ht, ?_, ?_⟩
      · simpa [hf] using hslot
      · simpa [hf.le] using hstart
    · obtain ⟨t, ht, hslot⟩ := hp.onto k (not_lt.mp hold) hk
      refine ⟨batches.length, new, t, getElem?_append_singleton_eq_some.mpr (.inr ⟨rfl, rfl⟩),
        ht, ?_, ?_⟩
      · simpa using hslot
      · simpa [h.last] using not_lt.mp hold

/-- **What is in a place** was put there as one item of one batch. -/
theorem Absorbed.existsUnique {start : ℕ → ℕ} (h : Absorbed close batches all start slot) {k : ℕ}
    {a : α} (hk : all[k]? = some a) :
    ∃! p : ℕ × ℕ, batches[p.1]?.bind (·[p.2]?) = some a ∧ start p.1 ≤ slot p.1 p.2 ∧
      slot p.1 p.2 = k := by
  obtain ⟨f, new, t, hf, ht, rfl, hstart⟩ := h.onto k (List.getElem?_eq_some_iff.mp hk).1
  obtain ⟨b, hb⟩ : ∃ b, new[t]? = some b := ⟨_, List.getElem?_eq_getElem ht⟩
  have hab : b = a := Option.some_inj.mp ((h.added f new t b hf hb hstart).symm.trans hk)
  refine ⟨(f, t), ⟨by rw [hf, Option.bind_some, hb, hab], hstart, rfl⟩, ?_⟩
  rintro ⟨f', t'⟩ ⟨hmem, hstart', heq⟩
  obtain ⟨new', hf', ht'⟩ := Option.bind_eq_some_iff.mp hmem
  have ht' : t' < new'.length := (List.getElem?_eq_some_iff.mp ht').1
  dsimp only at hf' hstart' heq
  have hlt := h.within f new t hf ht
  have hlt' := h.within f' new' t' hf' ht'
  -- the places of a batch lie between its start and the next
  have hff : f' = f := by
    rcases lt_trichotomy f' f with hlt₁ | heq₁ | hlt₁
    · have hmono : start (f' + 1) ≤ start f := h.mono hlt₁
      omega
    · exact heq₁
    · have hmono : start (f + 1) ≤ start f' := h.mono hlt₁
      omega
  subst hff
  obtain rfl := Option.some_inj.mp (hf.symm.trans hf')
  exact Prod.ext rfl (h.inj f' new t' t hf ht' ht heq)

end V2I
