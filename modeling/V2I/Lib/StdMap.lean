import Mathlib.Algebra.GroupWithZero.Nat
import Mathlib.Data.List.Nodup
import Mathlib.Data.List.Perm.Basic

/-!
# V2I.Lib.StdMap

A `std::map`, as the list of its entries with distinct keys. The order of the keys does not
matter to a program that only looks entries up, so entries stand in the order they came.
-/

namespace V2I

open List Option

/-- A map with distinct keys. -/
structure StdMap (κ α : Type*) where
  entries : List (κ × α)
  nodup : (entries.map Prod.fst).Nodup
  deriving DecidableEq

namespace StdMap

variable {κ α : Type*} [DecidableEq κ]

/-- A new map. -/
def empty : StdMap κ α := ⟨[], nodup_nil⟩

/-- The keys that have an entry. -/
def keys (m : StdMap κ α) : List κ := m.entries.map Prod.fst

/-- `find(k)` -/
def find (m : StdMap κ α) (k : κ) : Option α := m.entries.lookup k

/-- `insert({k, v})`: an entry that is there stays. -/
def insert (m : StdMap κ α) (k : κ) (v : α) : StdMap κ α :=
  if h : k ∈ m.entries.map Prod.fst then m
  else ⟨m.entries ++ [(k, v)], by
    rw [map_append]
    exact m.nodup.append (by simp) (by simpa using h)⟩

/-- `erase(k)` -/
def erase (m : StdMap κ α) (k : κ) : StdMap κ α :=
  ⟨m.entries.filter fun e => e.1 ≠ k, (filter_sublist.map Prod.fst).nodup m.nodup⟩

/-- `find(k)->second` changed in place. -/
def modify (m : StdMap κ α) (k : κ) (f : α → α) : StdMap κ α :=
  ⟨m.entries.map fun e => if e.1 = k then (e.1, f e.2) else e, by
    rw [List.map_map]
    have hkeys : (Prod.fst ∘ fun e : κ × α => if e.1 = k then (e.1, f e.2) else e) = Prod.fst := by
      funext e
      simp only [Function.comp_apply]
      split <;> rfl
    rw [hkeys]
    exact m.nodup⟩

/-- `operator[](k)`: a missing entry is made first. -/
def subscript [Inhabited α] (m : StdMap κ α) (k : κ) : α × StdMap κ α :=
  match m.find k with
  | some v => (v, m)
  | none => (default, m.insert k default)

/-- `operator[](k) = v` -/
def set (m : StdMap κ α) (k : κ) (v : α) : StdMap κ α := (m.erase k).insert k v

variable {m : StdMap κ α}

omit [DecidableEq κ] in
theorem ext_entries {m' : StdMap κ α} (h : m.entries = m'.entries) : m = m' := by
  cases m
  cases m'
  simpa using h

variable {k : κ}

theorem find_eq_some_iff {v : α} : m.find k = some v ↔ (k, v) ∈ m.entries := by
  obtain ⟨l, hl⟩ := m
  simp only [find]
  induction l with
  | nil => simp
  | cons e l ih =>
      obtain ⟨k', v'⟩ := e
      simp only [map_cons, nodup_cons] at hl
      by_cases hk : k = k'
      · subst hk
        have hnot : (k, v) ∉ l := fun h => hl.1 (mem_map_of_mem h)
        simp [hnot, eq_comm]
      · have hbeq : (k == k') = false := by simpa using hk
        simp [lookup_cons, hbeq, ih hl.2, hk]

theorem find_eq_none_iff : m.find k = none ↔ k ∉ m.keys := by
  rw [eq_none_iff_forall_ne_some]
  simp [find_eq_some_iff, keys]

theorem insert_of_mem (h : k ∈ m.keys) (v : α) : m.insert k v = m :=
  dif_pos h

theorem entries_insert (h : k ∉ m.keys) (v : α) :
    (m.insert k v).entries = m.entries ++ [(k, v)] := by
  rw [keys] at h
  rw [insert, dif_neg h]

theorem mem_erase {e : κ × α} : e ∈ (m.erase k).entries ↔ e ∈ m.entries ∧ e.1 ≠ k := by
  simp [erase]

/-- An entry and the others. -/
theorem perm_erase {v : α} (h : m.find k = some v) :
    m.entries.Perm ((k, v) :: (m.erase k).entries) := by
  obtain ⟨l, hl⟩ := m
  rw [find_eq_some_iff] at h
  simp only [erase] at h ⊢
  induction l with
  | nil => cases h
  | cons e l ih =>
      simp only [map_cons, nodup_cons] at hl
      rcases mem_cons.mp h with rfl | h
      · have hother : (l.filter fun e => e.1 ≠ k) = l := by
          refine filter_eq_self.mpr fun e he => ?_
          have hkey : e.1 ∈ l.map Prod.fst := mem_map_of_mem he
          simpa using fun heq : e.1 = k => hl.1 (heq ▸ hkey)
        rw [filter_cons_of_neg (by simp), hother]
      · have hne : e.1 ≠ k := fun heq => hl.1 (heq ▸ mem_map_of_mem h)
        rw [filter_cons_of_pos (by simpa using hne)]
        exact ((ih hl.2 h).cons e).trans (List.Perm.swap _ _ _)

theorem sum_erase (f : α → ℕ) (m : StdMap κ α) (k : κ) :
    (m.entries.map (f ·.2)).sum = ((m.erase k).entries.map (f ·.2)).sum + (m.find k).elim 0 f := by
  cases hfind : m.find k with
  | none =>
      have hsame : (m.erase k).entries = m.entries := by
        refine filter_eq_self.mpr fun e he => ?_
        simpa using fun hk : e.1 = k =>
          find_eq_none_iff.mp hfind (hk ▸ mem_map_of_mem he)
      rw [hsame]
      rfl
  | some v =>
      rw [((perm_erase hfind).map (f ·.2)).sum_nat, map_cons, sum_cons]
      exact Nat.add_comm _ _

theorem mem_keys_erase {k' : κ} : k' ∈ (m.erase k).keys ↔ k' ∈ m.keys ∧ k' ≠ k := by
  simp only [keys, List.mem_map, mem_erase]
  constructor
  · rintro ⟨e, ⟨he, hne⟩, rfl⟩
    exact ⟨⟨e, he, rfl⟩, hne⟩
  · rintro ⟨⟨e, he, rfl⟩, hne⟩
    exact ⟨e, ⟨he, hne⟩, rfl⟩

theorem find_erase (m : StdMap κ α) (k k' : κ) :
    (m.erase k).find k' = if k' = k then none else m.find k' := by
  split_ifs with hk
  · exact find_eq_none_iff.mpr fun h => (mem_keys_erase.mp h).2 hk
  · refine Option.ext fun v => ?_
    rw [find_eq_some_iff, find_eq_some_iff, mem_erase]
    exact and_iff_left hk

/-- A sum over the entries: an entry that is set stands for the one of its key. -/
theorem sum_set (f : α → ℕ) (m : StdMap κ α) (k : κ) (v : α) :
    ((m.set k v).entries.map (f ·.2)).sum + (m.find k).elim 0 f =
      (m.entries.map (f ·.2)).sum + f v := by
  have hnot : k ∉ (m.erase k).keys := fun h => (mem_keys_erase.mp h).2 rfl
  have hset : ((m.set k v).entries.map (f ·.2)).sum =
      ((m.erase k).entries.map (f ·.2)).sum + f v := by
    rw [set, entries_insert hnot]
    simp
  rw [hset, sum_erase f m k]
  omega

theorem find_insert_of_ne {k' : κ} (h : k' ≠ k) (v : α) : (m.insert k v).find k' = m.find k' := by
  by_cases hk : k ∈ m.keys
  · rw [insert_of_mem hk]
  · refine Option.ext fun v' => ?_
    rw [find_eq_some_iff, find_eq_some_iff, entries_insert hk]
    simp [h]

@[simp]
theorem find_empty (k : κ) : (empty : StdMap κ α).find k = none := rfl

theorem find_set (m : StdMap κ α) (k k' : κ) (v : α) :
    (m.set k v).find k' = if k' = k then some v else m.find k' := by
  have hnot : k ∉ (m.erase k).keys := fun h => (mem_keys_erase.mp h).2 rfl
  split_ifs with hk
  · subst hk
    rw [find_eq_some_iff, set, entries_insert hnot]
    simp
  · rw [set, find_insert_of_ne hk, find_erase, if_neg hk]

theorem find_modify (m : StdMap κ α) (k k' : κ) (f : α → α) :
    (m.modify k f).find k' = if k' = k then (m.find k').map f else m.find k' := by
  obtain ⟨l, hl⟩ := m
  simp only [modify, find]
  clear hl
  induction l with
  | nil => simp
  | cons e l ih =>
      obtain ⟨a, v⟩ := e
      by_cases ha : k' = a
      · subst ha
        by_cases hk : k' = k <;> simp [hk]
      · have hbeq : (k' == a) = false := by simpa using ha
        by_cases hk : a = k
        · subst hk
          simp only [map_cons, if_pos, lookup_cons, hbeq]
          exact ih
        · simp only [map_cons, hk, if_neg, not_false_eq_true, lookup_cons, hbeq]
          exact ih

theorem find_insert (m : StdMap κ α) (k k' : κ) (v : α) :
    (m.insert k v).find k' = (m.find k').or (if k' = k then some v else none) := by
  split_ifs with hk
  · subst hk
    by_cases hmem : k' ∈ m.keys
    · rw [insert_of_mem hmem]
      cases hfind : m.find k' with
      | none => exact absurd hmem (find_eq_none_iff.mp hfind)
      | some v' => rfl
    · rw [find_eq_none_iff.mpr hmem, none_or, find_eq_some_iff, entries_insert hmem]
      simp
  · rw [find_insert_of_ne hk, or_none]

theorem subscript_fst [Inhabited α] (m : StdMap κ α) (k : κ) :
    (m.subscript k).1 = (m.find k).getD default := by
  unfold subscript
  split
  · next v hv => rw [hv, getD_some]
  · next hv => rw [hv, getD_none]

theorem find_subscript [Inhabited α] (m : StdMap κ α) (k k' : κ) :
    (m.subscript k).2.find k' = if k' = k then some ((m.find k).getD default) else m.find k' := by
  unfold subscript
  split
  · next v hv =>
      split_ifs with hk
      · rw [hk, hv, getD_some]
      · rfl
  · next hv =>
      rw [find_insert]
      split_ifs with hk
      · rw [hk, hv, none_or, getD_none]
      · rw [or_none]

/-- Reading an entry that is there changes nothing. -/
theorem subscript_of_mem [Inhabited α] (h : k ∈ m.keys) : (m.subscript k).2 = m := by
  unfold subscript
  split
  · rfl
  · next hv => exact absurd h (find_eq_none_iff.mp hv)

/-- Entries that go in one after the other: the first one of a key stays. -/
theorem find_foldl_insert {β : Type*} (f : β → κ) (g : β → α) (l : List β) (m : StdMap κ α)
    (k : κ) :
    (l.foldl (fun m b => m.insert (f b) (g b)) m).find k =
      (m.find k).or ((l.find? fun b => f b = k).map g) := by
  induction l generalizing m with
  | nil => simp
  | cons b l ih =>
      rw [List.foldl_cons, ih, find_insert, Option.or_assoc]
      by_cases hk : f b = k
      · simp [hk]
      · simp [hk, Ne.symm hk]

variable {l : List (κ × α)}

theorem find_foldl_insert_of_not_mem (h : k ∉ l.map Prod.fst) (m : StdMap κ α) :
    (l.foldl (fun m e => m.insert e.1 e.2) m).find k = m.find k := by
  induction l generalizing m with
  | nil => rfl
  | cons e l ih =>
      simp only [map_cons, mem_cons, not_or] at h
      rw [List.foldl_cons, ih h.2, find_insert_of_ne h.1]

theorem find_foldl_erase (l : List κ) (m : StdMap κ α) (k : κ) :
    (l.foldl erase m).find k = if k ∈ l then none else m.find k := by
  induction l generalizing m with
  | nil => simp
  | cons k' l ih =>
      rw [List.foldl_cons, ih, find_erase]
      by_cases hl : k ∈ l
      · simp [hl]
      · simp [hl]

/-- Entries with new keys go in at the end. -/
theorem entries_foldl_insert (hl : (l.map Prod.fst).Nodup) (hm : ∀ e ∈ l, e.1 ∉ m.keys) :
    (l.foldl (fun m e => m.insert e.1 e.2) m).entries = m.entries ++ l := by
  induction l generalizing m with
  | nil => simp
  | cons e l ih =>
      simp only [map_cons, nodup_cons] at hl
      obtain ⟨he, hm⟩ := forall_mem_cons.mp hm
      have hentries := entries_insert he e.2
      rw [List.foldl_cons, ih hl.2, hentries, append_assoc]
      · rfl
      · intro e' he'
        rw [keys, hentries, map_append, mem_append, not_or]
        refine ⟨hm e' he', ?_⟩
        simpa using fun heq : e'.1 = e.1 => hl.1 (heq ▸ mem_map_of_mem he')

theorem entries_foldl_erase (l : List κ) (m : StdMap κ α) :
    (l.foldl erase m).entries = m.entries.filter fun e => e.1 ∉ l := by
  induction l generalizing m with
  | nil => simp
  | cons k l ih =>
      rw [List.foldl_cons, ih]
      simp only [erase, List.filter_filter]
      refine List.filter_congr fun e _ => ?_
      simp [Bool.and_comm]

/-- Entries that go in and out again do not show. -/
theorem foldl_erase_foldl_insert (h : ∀ k ∈ l.map Prod.fst, k ∉ m.keys) :
    (l.map Prod.fst).foldl erase (l.foldl (fun m e => m.insert e.1 e.2) m) = m := by
  have hfilter : ∀ ks : List κ, (∀ e ∈ l, e.1 ∈ ks) → ∀ m : StdMap κ α,
      ((l.foldl (fun m e => m.insert e.1 e.2) m).entries.filter fun e => e.1 ∉ ks) =
        m.entries.filter fun e => e.1 ∉ ks := by
    intro ks hks
    clear h
    induction l with
    | nil => simp
    | cons e l ih =>
        intro m
        obtain ⟨he, hks⟩ := forall_mem_cons.mp hks
        rw [List.foldl_cons, ih hks]
        by_cases hmem : e.1 ∈ m.keys
        · rw [insert_of_mem hmem]
        · simp [entries_insert hmem, he]
  refine ext_entries ?_
  rw [entries_foldl_erase, hfilter _ (fun e he => mem_map_of_mem he), filter_eq_self]
  intro e he
  simpa using fun hl : e.1 ∈ l.map Prod.fst => h e.1 hl (mem_map_of_mem he)

end StdMap

end V2I
