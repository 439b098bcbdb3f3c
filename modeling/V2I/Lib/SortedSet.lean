import Mathlib.Data.List.Induction
import Mathlib.Order.Lattice

/-!
# V2I.Lib.SortedSet

A `std::set` whose elements are compared by a key: a list in the order of the keys. An element
whose key is there already is not inserted.
-/

namespace V2I.SortedSet

open List

variable {α κ : Type*} [LinearOrder κ] (key : α → κ)

/-- `insert(a)` -/
def insert (a : α) : List α → List α
  | [] => [a]
  | b :: l =>
      if key a < key b then a :: b :: l
      else if key b < key a then b :: insert a l
      else b :: l

/-- The elements of a list go in one after the other. -/
def ofList (l : List α) : List α := l.foldl (fun s a => insert key a s) []

variable {key} {a : α} {l : List α}

theorem mem_of_mem_insert {x : α} (h : x ∈ insert key a l) : x = a ∨ x ∈ l := by
  induction l with
  | nil => exact .inl (mem_singleton.mp h)
  | cons b l ih =>
      rw [insert] at h
      split_ifs at h
      · exact mem_cons.mp h
      · rcases mem_cons.mp h with rfl | h
        · exact .inr mem_cons_self
        · exact (ih h).imp_right (mem_cons_of_mem b)
      · exact .inr h

theorem mem_insert_of_mem {x : α} (h : x ∈ l) : x ∈ insert key a l := by
  induction l with
  | nil => cases h
  | cons b l ih =>
      rw [insert]
      split_ifs
      · exact mem_cons_of_mem a h
      · rcases mem_cons.mp h with rfl | h
        · exact mem_cons_self
        · exact mem_cons_of_mem b (ih h)
      · exact h

/-- The key is there afterwards. -/
theorem exists_mem_insert (a : α) (l : List α) : ∃ x ∈ insert key a l, key x = key a := by
  induction l with
  | nil => exact ⟨a, mem_singleton_self a, rfl⟩
  | cons b l ih =>
      rw [insert]
      split_ifs with hlt hgt
      · exact ⟨a, mem_cons_self, rfl⟩
      · obtain ⟨x, hx, hkey⟩ := ih
        exact ⟨x, mem_cons_of_mem b hx, hkey⟩
      · exact ⟨b, mem_cons_self, le_antisymm (not_lt.mp hlt) (not_lt.mp hgt)⟩

theorem insert_sorted (h : l.Pairwise fun x y => key x < key y) :
    (insert key a l).Pairwise fun x y => key x < key y := by
  induction l with
  | nil => exact pairwise_singleton _ a
  | cons b l ih =>
      obtain ⟨hb, hl⟩ := pairwise_cons.mp h
      rw [insert]
      split_ifs with hlt hgt
      · refine pairwise_cons.mpr ⟨fun x hx => ?_, h⟩
        rcases mem_cons.mp hx with rfl | hx
        · exact hlt
        · exact lt_trans hlt (hb x hx)
      · refine pairwise_cons.mpr ⟨fun x hx => ?_, ih hl⟩
        rcases mem_of_mem_insert hx with rfl | hx
        · exact hgt
        · exact hb x hx
      · exact h

/-- An element behind all others. -/
theorem insert_of_lt (h : ∀ x ∈ l, key x < key a) : insert key a l = l ++ [a] := by
  induction l with
  | nil => rfl
  | cons b l ih =>
      obtain ⟨hb, hl⟩ := forall_mem_cons.mp h
      rw [insert, if_neg (lt_asymm hb), if_pos hb, ih hl]
      rfl

theorem ofList_append_singleton (l : List α) (a : α) :
    ofList key (l ++ [a]) = insert key a (ofList key l) := by
  rw [ofList, foldl_append]
  rfl

theorem ofList_sorted (l : List α) : (ofList key l).Pairwise fun x y => key x < key y := by
  induction l using reverseRecOn with
  | nil => exact .nil
  | append_singleton l a ih =>
      rw [ofList_append_singleton]
      exact insert_sorted ih

theorem mem_of_mem_ofList {x : α} (h : x ∈ ofList key l) : x ∈ l := by
  induction l using reverseRecOn with
  | nil => cases h
  | append_singleton l a ih =>
      rw [ofList_append_singleton] at h
      rcases mem_of_mem_insert h with rfl | h
      · exact mem_append_right l (mem_singleton_self x)
      · exact mem_append_left [a] (ih h)

variable (key) in
/-- Of the elements with a key one goes in. -/
theorem exists_mem_ofList {x : α} (h : x ∈ l) : ∃ y ∈ ofList key l, key y = key x := by
  induction l using reverseRecOn with
  | nil => cases h
  | append_singleton l a ih =>
      rw [ofList_append_singleton]
      rcases mem_append.mp h with h | h
      · obtain ⟨y, hy, hkey⟩ := ih h
        exact ⟨y, mem_insert_of_mem hy, hkey⟩
      · rw [mem_singleton.mp h]
        exact exists_mem_insert a _

/-- Elements that come in their order stay as they are. -/
theorem ofList_of_sorted (h : l.Pairwise fun x y => key x < key y) : ofList key l = l := by
  induction l using reverseRecOn with
  | nil => rfl
  | append_singleton l a ih =>
      obtain ⟨hl, -, hlt⟩ := pairwise_append.mp h
      rw [ofList_append_singleton, ih hl]
      exact insert_of_lt fun x hx => hlt x hx a (mem_singleton_self a)

end V2I.SortedSet
