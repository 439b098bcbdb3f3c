import Mathlib.Data.List.Flatten
import Mathlib.Data.List.Nodup
import Mathlib.Data.List.Perm.Basic

/-!
# V2I.Lib.Neighbours

Lists and what comes next in them.
-/

namespace V2I.Neighbours

open List

variable {α β : Type*}

section Pairs

variable [DecidableEq α]

/-- The first entry that differs from this one. -/
def other (a : α) (l : List α) : Option α := l.find? (· ≠ a)

/-- Each entry with the first one behind it that differs. -/
def nexts : List α → List (α × α)
  | [] => []
  | a :: l => ((other a l).map fun b => (a, b)).toList ++ nexts l

/-- The consecutive entries that differ. -/
def steps : List α → List (α × α)
  | [] | [_] => []
  | a :: b :: l => (if a = b then [] else [(a, b)]) ++ steps (b :: l)

/-- An entry that is repeated at once, with the first one behind it that differs. -/
def repeats : List α → List (α × α)
  | [] | [_] => []
  | a :: b :: l =>
      (if a = b then ((other a l).map fun c => (a, c)).toList else []) ++ repeats (b :: l)

theorem nexts_perm (l : List α) : (nexts l).Perm (steps l ++ repeats l) := by
  induction l with
  | nil => exact .refl _
  | cons a l ih =>
    cases l with
    | nil => exact .refl _
    | cons b l =>
      rw [nexts, steps, repeats]
      by_cases hab : a = b
      · subst hab
        have hother : other a (a :: l) = other a l := by simp [other]
        rw [hother, if_pos rfl, if_pos rfl, nil_append]
        exact (ih.append_left _).trans (perm_append_comm_assoc _ _ _)
      · have hother : other a (b :: l) = some b := by simp [other, Ne.symm hab]
        rw [hother, if_neg hab, if_neg hab, nil_append]
        exact ih.append_left _

end Pairs

/-- The parts of a list where each entry is seen with what is behind it. -/
def alongside (f : α → List α → List β) : List α → List β
  | [] => []
  | a :: l => f a l ++ alongside f l

theorem flatMap_range_eq_alongside (f : α → List α → List β) (l : List α) :
    ((List.range l.length).flatMap fun i => (l[i]?.map fun a => f a (l.drop (i + 1))).getD []) =
      alongside f l := by
  induction l with
  | nil => rfl
  | cons a l ih =>
    rw [alongside, ← ih, length_cons, range_succ_eq_map, flatMap_cons, flatMap_map]
    simp

/-- Changing one entry of a list adds one part to the parts of all of them. -/
theorem perm_flatMap_modify {l : List α} {i : ℕ} {f : α → α} {g : α → List β} {a : α} {b : β}
    (hi : l[i]? = some a) (hf : (g (f a)).Perm (b :: g a)) :
    ((l.modify i f).flatMap g).Perm (b :: l.flatMap g) := by
  induction l generalizing i with
  | nil => cases hi
  | cons c l ih =>
    cases i with
    | zero =>
      obtain rfl := Option.some.inj hi
      rw [modify_zero_cons, flatMap_cons, flatMap_cons]
      exact hf.append_right _
    | succ i =>
      rw [modify_succ_cons, flatMap_cons, flatMap_cons]
      exact ((ih hi).append_left _).trans perm_middle

end V2I.Neighbours
