import Mathlib.Algebra.Ring.Parity
import Mathlib.Data.Finset.Basic
import Mathlib.Data.List.TakeWhile

/-!
# V2I.Lib.Lists

Facts on lists: entries found by a key, neighbours, and the parts of a text between separators.
-/

namespace V2I

open List

variable {α β γ : Type*} {l : List α}

/-- Entries that share an index that occurs once are one entry. -/
theorem eq_of_count_map_eq_one [DecidableEq β] {f : α → β} {a a' : α}
    (h : (l.map f).count (f a) = 1) (ha : a ∈ l) (ha' : a' ∈ l) (heq : f a' = f a) : a = a' := by
  rw [List.count, countP_map, countP_eq_length_filter, length_eq_one_iff] at h
  obtain ⟨x, hx⟩ := h
  have hmem : ∀ b ∈ l, f b = f a → b = x := fun b hb hfb => by
    rw [← mem_singleton, ← hx]
    exact mem_filter.mpr ⟨hb, by simpa using hfb⟩
  rw [hmem a ha rfl, hmem a' ha' heq]

/-- Looking up by indices that are all in range keeps the positions. -/
theorem getElem?_filterMap_getElem? {is : List ℕ} (h : ∀ i ∈ is, i < l.length) (r : ℕ) :
    (is.filterMap (l[·]?))[r]? = is[r]?.bind (l[·]?) := by
  induction is generalizing r with
  | nil => rfl
  | cons i is ih =>
      obtain ⟨hi, his⟩ := forall_mem_cons.mp h
      rw [filterMap_cons_some (getElem?_eq_getElem hi)]
      cases r with
      | zero => exact (getElem?_eq_getElem hi).symm
      | succ r => exact ih his r

theorem length_filterMap_getElem? {is : List ℕ} (h : ∀ i ∈ is, i < l.length) :
    (is.filterMap (l[·]?)).length = is.length := by
  induction is with
  | nil => rfl
  | cons i is ih =>
      obtain ⟨hi, his⟩ := forall_mem_cons.mp h
      rw [filterMap_cons_some (getElem?_eq_getElem hi), length_cons, ih his, length_cons]

theorem getElem?_eq_getD {i : ℕ} (hi : i < l.length) (x : α) : l[i]? = some (l.getD i x) := by
  simp [getD_eq_getElem?_getD, getElem?_eq_getElem hi]

theorem getD_mem {i : ℕ} {x : α} (hi : i < l.length) : l.getD i x ∈ l := by
  simp [getD_eq_getElem?_getD, getElem?_eq_getElem hi]

/-- A map over the numbered items that does not use the numbers. -/
theorem map_zipIdx_eq {f : α × ℕ → β} {g : α → β} (h : ∀ x ∈ l.zipIdx, f x = g x.1) :
    l.zipIdx.map f = l.map g := by
  calc l.zipIdx.map f
      = l.zipIdx.map (g ∘ Prod.fst) := map_congr_left h
    _ = (l.zipIdx.map Prod.fst).map g := (map_map).symm
    _ = l.map g := by rw [zipIdx_map_fst]

/-- Two items of a list without repetition are the same when they stand at one position. -/
theorem position_eq_iff (hl : l.Nodup) {x y : α × ℕ} (hx : x ∈ l.zipIdx) (hy : y ∈ l.zipIdx) :
    x.2 = y.2 ↔ x.1 = y.1 := by
  rw [mem_zipIdx_iff_getElem?] at hx hy
  constructor
  · intro heq
    rw [heq, hy] at hx
    exact (Option.some_inj.mp hx).symm
  · intro heq
    rw [heq, ← hy] at hx
    obtain ⟨hlt, -⟩ := List.getElem?_eq_some_iff.mp (hx.trans hy)
    exact (List.getElem?_inj hlt hl).mp hx

/-- Flipping at some elements of a list. -/
theorem foldl_flip (f : α → Bool) (l : List α) (c : Bool) :
    l.foldl (fun c e => if f e then !c else c) c = (c ^^ decide (Odd (l.countP f))) := by
  induction l generalizing c with
  | nil => simp
  | cons a l ih =>
      rw [foldl_cons, ih, countP_cons]
      cases hf : f a
      · simp
      · by_cases h : Odd (l.countP f) <;> cases c <;> simp [h, Nat.odd_add_one]

/-- A pass over a list, each entry of which adds what is related to it. -/
theorem mem_foldl (add : Finset α → β → Finset α) {rel : β → α → Prop}
    (hadd : ∀ output b a, a ∈ add output b ↔ a ∈ output ∨ rel b a) {ids : List β}
    {output : Finset α} {id : α} :
    id ∈ ids.foldl add output ↔ id ∈ output ∨ ∃ b ∈ ids, rel b id := by
  induction ids generalizing output with
  | nil => simp
  | cons b ids ih => rw [foldl_cons, ih, hadd, exists_mem_cons_iff, or_assoc]

theorem exists_of_forall₂ {R : β → γ → Prop} {l : List β} {l' : List γ}
    (h : Forall₂ R l l') {c : γ} (hc : c ∈ l') : ∃ b, R b c := by
  induction h with
  | nil => cases hc
  | cons hR _ ih =>
      rcases mem_cons.mp hc with rfl | hc
      · exact ⟨_, hR⟩
      · exact ih hc

theorem zip_tail_concat {a b : α} (h : l.getLast? = some a) :
    (l ++ [b]).zip (l ++ [b]).tail = l.zip l.tail ++ [(a, b)] := by
  induction l with
  | nil => cases h
  | cons x l ih =>
      cases l with
      | nil =>
          cases h
          rfl
      | cons y l =>
          have hl : (y :: l).getLast? = some a := by rwa [getLast?_cons_cons] at h
          have := ih hl
          simp only [cons_append, tail_cons, zip_cons_cons] at this ⊢
          rw [this]

theorem mem_zip_tail (a b : List α) (x y : α) :
    (x, y) ∈ (a ++ x :: y :: b).zip (a ++ x :: y :: b).tail := by
  induction a with
  | nil => simp
  | cons z a ih =>
      cases a with
      | nil => simp
      | cons z' a =>
          simp only [cons_append, tail_cons, zip_cons_cons] at ih ⊢
          exact mem_cons_of_mem _ ih

theorem length_flatMap_range (f : ℕ → ℕ → α) (n k : ℕ) :
    ((List.range n).flatMap fun i => (List.range k).map (f i)).length = n * k := by
  induction n with
  | zero => simp
  | succ n ih =>
      rw [range_succ, flatMap_append, length_append, ih, Nat.succ_mul]
      simp

/-- The results of one entry among those of all. -/
theorem filter_filterMap {κ : Type*} [DecidableEq κ] {f : α → Option β} {key : α → κ} {id : β → κ}
    (hid : ∀ a ∈ l, ∀ b, f a = some b → id b = key a) (hnodup : (l.map key).Nodup) {a : α}
    (ha : a ∈ l) : ((l.filterMap f).filter fun b => id b = key a) = (f a).toList := by
  induction l with
  | nil => cases ha
  | cons c l ih =>
      rw [map_cons, nodup_cons] at hnodup
      have hc := hid c mem_cons_self
      have hrest : ∀ a ∈ l, ∀ b, f a = some b → id b = key a :=
        fun a h => hid a (mem_cons_of_mem _ h)
      have hcons : (c :: l).filterMap f = (f c).toList ++ l.filterMap f := by
        rw [filterMap_cons]
        cases f c <;> rfl
      rw [hcons, filter_append]
      cases mem_cons.mp ha with
      | inl heq =>
          subst heq
          have hnone : ((l.filterMap f).filter fun b => id b = key a) = [] := by
            rw [filter_eq_nil_iff]
            intro b hb hkey
            obtain ⟨a', ha', hb'⟩ := mem_filterMap.mp hb
            have hsame : key a' = key a := (hrest a' ha' b hb').symm.trans (of_decide_eq_true hkey)
            exact hnodup.1 (hsame ▸ mem_map_of_mem ha')
          rw [hnone, append_nil]
          cases hfa : f a with
          | none => rfl
          | some b => simp [hc b hfa]
      | inr hmem =>
          have hne : key c ≠ key a := fun heq =>
            hnodup.1 (heq ▸ mem_map_of_mem hmem)
          have hnone : ((f c).toList.filter fun b => id b = key a) = [] := by
            cases hfc : f c with
            | none => rfl
            | some b => simp [hc b hfc, hne]
          rw [hnone, nil_append, ih hrest hnodup.2 hmem]

/-! ## Parts between separators -/

section Separators

variable {sep d : α} {s rest : List α}

section Split

variable [BEq α] [LawfulBEq α]

theorem splitOn_of_dropWhile_nil (h : s.dropWhile (· != sep) = []) :
    s.splitOn sep = [s.takeWhile (· != sep)] := by
  have hs : s.takeWhile (· != sep) = s := by
    rw [← append_nil (s.takeWhile _), ← h, takeWhile_append_dropWhile]
  rw [hs, splitOn_eq_singleton]
  intro hmem
  rw [← hs] at hmem
  simpa using mem_takeWhile_imp hmem

theorem splitOn_of_dropWhile_cons (h : s.dropWhile (· != sep) = d :: rest) :
    s.splitOn sep = s.takeWhile (· != sep) :: rest.splitOn sep := by
  have hd : d = sep := by
    have hhead := head_dropWhile_not (l := s) (· != sep) (by simp [h])
    simpa [h] using hhead
  have hnot : sep ∉ s.takeWhile (· != sep) := fun hmem => by
    simpa using mem_takeWhile_imp hmem
  have hs : s.takeWhile (· != sep) ++ sep :: rest = s := by
    rw [← hd, ← h, hd, takeWhile_append_dropWhile]
  rw [← splitOn_append_cons_self_of_not_mem hnot, hs]

theorem takeWhile_mem_splitOn (sep : α) (s : List α) : s.takeWhile (· != sep) ∈ s.splitOn sep := by
  cases hdrop : s.dropWhile (· != sep) with
  | nil => simp [splitOn_of_dropWhile_nil hdrop]
  | cons d rest => simp [splitOn_of_dropWhile_cons hdrop]

end Split

theorem mem_intercalate {c : α} {ps : List (List α)} (hc : c ∈ [sep].intercalate ps) :
    c = sep ∨ ∃ p ∈ ps, c ∈ p := by
  induction ps with
  | nil => simp at hc
  | cons p ps ih =>
      cases ps with
      | nil => exact .inr ⟨p, mem_singleton_self p, by simpa using hc⟩
      | cons q ps =>
          rw [intercalate_cons_cons, mem_append, mem_append, mem_singleton] at hc
          rcases hc with (hc | hc) | hc
          · exact .inr ⟨p, mem_cons_self, hc⟩
          · exact .inl hc
          · obtain hc | ⟨r, hr, hc⟩ := ih hc
            · exact .inl hc
            · exact .inr ⟨r, mem_cons_of_mem p hr, hc⟩

end Separators

end V2I
