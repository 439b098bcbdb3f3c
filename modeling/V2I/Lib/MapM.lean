import Mathlib.Data.List.Nodup

/-!
# V2I.Lib.MapM

Lists through a function that may fail.
-/

namespace V2I

open List

variable {α β : Type} {f : α → Option β} {l : List α} {l' : List β}

/-- **What comes out**, entry by entry. -/
theorem mapM_eq_some_iff : l.mapM f = some l' ↔ Forall₂ (fun a b => f a = some b) l l' := by
  constructor
  · intro h
    induction l generalizing l' with
    | nil =>
        cases h
        exact .nil
    | cons a l ih =>
        simp only [mapM_cons, Option.bind_eq_bind, Option.bind_eq_some_iff] at h
        obtain ⟨b, hb, bs, hbs, heq⟩ := h
        cases heq
        exact .cons hb (ih hbs)
  · intro h
    induction h with
    | nil => rfl
    | cons ha _ ih =>
        rw [mapM_cons, ha, ih]
        rfl

/-- **Nothing fails** exactly when no entry does. -/
theorem mapM_isSome_iff : (l.mapM f).isSome ↔ ∀ a ∈ l, (f a).isSome := by
  induction l with
  | nil => simp
  | cons a l ih =>
      rw [mapM_cons, forall_mem_cons, ← ih]
      cases f a <;> cases l.mapM f <;> simp

theorem mapM_eq_some_map {g : α → β} (h : ∀ x ∈ l, f x = some (g x)) : l.mapM f = some (l.map g) :=
  mapM_eq_some_iff.mpr (forall₂_map_right_iff.mpr (forall₂_same.mpr h))

theorem mapM_eq_some_filterMap (h : l.mapM f = some l') : l' = l.filterMap f := by
  rw [mapM_eq_some_iff] at h
  induction h with
  | nil => rfl
  | cons ha _ ih => rw [filterMap_cons_some ha, ih]

/-- An entry that comes out is that of an entry of the list. -/
theorem mem_of_mapM {b : β} (h : l.mapM f = some l') : b ∈ l' ↔ ∃ a ∈ l, f a = some b := by
  rw [mapM_eq_some_filterMap h, mem_filterMap]

theorem length_mapM (h : l.mapM f = some l') : l'.length = l.length :=
  (mapM_eq_some_iff.mp h).length_eq.symm

/-! ## Reading a list -/

/-- A function that returns for all numbers below a bound. -/
theorem mapM_range_eq_some {n : ℕ} {f : ℕ → Option β} (h : ∀ s < n, ∃ b, f s = some b) :
    ∃ bs, (List.range n).mapM f = some bs ∧ bs.length = n ∧ ∀ s < n, bs[s]? = f s := by
  induction n with
  | zero => exact ⟨[], rfl, rfl, fun s hs => absurd hs (Nat.not_lt_zero s)⟩
  | succ n ih =>
      obtain ⟨bs, hbs, hlen, hget⟩ := ih fun s hs => h s (Nat.lt_succ_of_lt hs)
      obtain ⟨b, hb⟩ := h n (Nat.lt_succ_self n)
      refine ⟨bs ++ [b], ?_, by simp [hlen], fun s hs => ?_⟩
      · rw [range_succ, mapM_append, hbs]
        simp [hb]
      · rcases Nat.lt_succ_iff_lt_or_eq.mp hs with hs | rfl
        · rw [getElem?_append_left (by omega), hget s hs]
        · rw [getElem?_append_right (by omega), hlen, hb]
          simp

variable {path : List ℕ}

/-- Reading a list at indices in range. -/
theorem mapM_getElem?_eq_some {states : List α} (h : ∀ s ∈ path, s < states.length) :
    ∃ r, path.mapM (fun s => states[s]?) = some r := by
  rw [← Option.isSome_iff_exists, mapM_isSome_iff]
  intro s hs
  rw [getElem?_eq_getElem (h s hs), Option.isSome_some]

/-- In a list without repetition what is read tells the indices. -/
theorem mapM_getElem?_inj {states : List α} (hnodup : states.Nodup) {path' : List ℕ} {r : List α}
    (h : path.mapM (fun s => states[s]?) = some r) (h' : path'.mapM (fun s => states[s]?) = some r)
    : path = path' := by
  have hunique : Relator.LeftUnique fun (s : ℕ) (c : α) => states[s]? = some c := by
    intro s c s' hs hs'
    obtain ⟨hlt, -⟩ := List.getElem?_eq_some_iff.mp hs
    exact (List.getElem?_inj hlt hnodup).mp (hs.trans hs'.symm)
  exact List.left_unique_forall₂' hunique (mapM_eq_some_iff.mp h) (mapM_eq_some_iff.mp h')

/-- Reading a list at indices that are all in range. -/
theorem mapM_getElem?_eq {x : α} (h : ∀ j ∈ path, j < l.length) :
    path.mapM (fun idx => l[idx]?) = some (path.map (l.getD · x)) := by
  refine mapM_eq_some_map fun j hj => ?_
  rw [getD_eq_getElem?_getD, getElem?_eq_getElem (h j hj), Option.getD_some]

/-- A path that is not empty cannot be read in an empty list. -/
theorem mapM_nil_getElem? (h : path ≠ []) : path.mapM (fun idx => ([] : List α)[idx]?) = none := by
  cases path with
  | nil => exact absurd rfl h
  | cons => simp

end V2I
