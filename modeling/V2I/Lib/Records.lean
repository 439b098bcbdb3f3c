import Mathlib.Data.List.Basic

/-!
# V2I.Lib.Records

Files of records that are written one behind the other and read at addresses. A record is found at
the sum of the sizes of those before it, so a table that stands somewhere in a file is read record
by record from its address (`Holds`).
-/

namespace V2I.Records

variable {ε : Type*} (size : ε → ℕ)

/-- The record that starts at the address, if one does. -/
def recordAt : List ε → ℕ → Option ε
  | [], _ => none
  | e :: es, addr =>
      if addr = 0 then some e
      else if size e ≤ addr then recordAt es (addr - size e)
      else none

def total : List ε → ℕ
  | [] => 0
  | e :: es => size e + total es

@[simp] theorem total_nil : total size [] = 0 := rfl

@[simp] theorem total_cons (e : ε) (es : List ε) : total size (e :: es) = size e + total size es :=
  rfl

@[simp] theorem total_append (es es' : List ε) :
    total size (es ++ es') = total size es + total size es' := by
  induction es with
  | nil => simp
  | cons e es ih =>
      rw [List.cons_append, total_cons, ih, total_cons]
      omega

theorem total_const {z : ℕ} {es : List ε} (h : ∀ e ∈ es, size e = z) :
    total size es = z * es.length := by
  induction es with
  | nil => rfl
  | cons e es ih =>
      obtain ⟨he, hes⟩ := List.forall_mem_cons.mp h
      rw [total_cons, he, ih hes, List.length_cons, Nat.mul_succ]
      omega

/-- The records stand one behind the other from the address on. -/
def Holds (file : List ε) : ℕ → List ε → Prop
  | _, [] => True
  | addr, e :: es => recordAt size file addr = some e ∧ Holds file (addr + size e) es

variable {size} {file : List ε}

theorem holds_append {addr : ℕ} {es es' : List ε} :
    Holds size file addr (es ++ es') ↔
      Holds size file addr es ∧ Holds size file (addr + total size es) es' := by
  induction es generalizing addr with
  | nil => simp [Holds]
  | cons e es ih =>
      rw [List.cons_append, Holds, Holds, ih, total_cons, Nat.add_assoc, and_assoc]

theorem recordAt_append (hsize : ∀ e, 0 < size e) (es es' : List ε) (addr : ℕ) :
    recordAt size (es ++ es') (total size es + addr) = recordAt size es' addr := by
  induction es with
  | nil => simp
  | cons e es ih =>
      have he := hsize e
      rw [List.cons_append, recordAt, if_neg (by simp; omega), if_pos (by simp; omega), ← ih]
      congr 1
      simp only [total_cons]
      omega

/-- A file holds its own records. -/
theorem holds_self (hsize : ∀ e, 0 < size e) (file : List ε) : Holds size file 0 file := by
  have hrest : ∀ es pre, pre ++ es = file → Holds size file (total size pre) es := by
    intro es
    induction es with
    | nil => exact fun _ _ => trivial
    | cons e es ih =>
        intro pre hpre
        refine ⟨?_, ?_⟩
        · rw [← hpre, ← Nat.add_zero (total size pre), recordAt_append hsize]
          rfl
        · have hnext := ih (pre ++ [e]) (by simpa using hpre)
          simpa using hnext
  exact hrest file [] rfl

end V2I.Records
