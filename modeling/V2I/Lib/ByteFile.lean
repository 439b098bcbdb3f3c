import Mathlib.Algebra.GroupWithZero.Nat
import Mathlib.Data.List.Basic

/-!
# V2I.Lib.ByteFile

Files as lists of bytes: writing at a position, also behind the end of the file; numbers of 32
and 64 bits as four and eight bytes, the lowest first; tables of numbers; texts that end with a
zero byte.

For each form there is the lemma that reads back what was written, with what stands behind it.
-/

namespace V2I.ByteFile

open List

/-! ## writing at a position -/

/-- The file after writing at a position. Where that lies behind the end, zeros fill the gap. -/
def writeAt (data : List UInt8) (pos : ℕ) (buf : List UInt8) : List UInt8 :=
  if buf.isEmpty then data
  else
    data.take pos ++ List.replicate (pos - data.length) 0 ++ buf ++
      data.drop (pos + buf.length)

variable (data : List UInt8)

theorem writeAt_nil (pos : ℕ) : writeAt data pos [] = data := rfl

variable {buf : List UInt8}

theorem length_writeAt (pos : ℕ) (hbuf : buf ≠ []) :
    (writeAt data pos buf).length = max data.length (pos + buf.length) := by
  rw [writeAt, if_neg (by simpa using hbuf), length_append, length_append,
    length_append, length_take, length_replicate, length_drop]
  omega

/-- Writing at the start. -/
theorem writeAt_zero (buf : List UInt8) : writeAt data 0 buf = buf ++ data.drop buf.length := by
  cases buf with
  | nil => rfl
  | cons b bs =>
      rw [writeAt, if_neg (by simp), take_zero, Nat.zero_sub, replicate_zero, Nat.zero_add]
      rfl

/-- Writing behind the end. -/
theorem writeAt_beyond (gap : ℕ) (hbuf : buf ≠ []) :
    writeAt data (data.length + gap) buf = data ++ List.replicate gap 0 ++ buf := by
  rw [writeAt, if_neg (by simpa using hbuf), take_of_length_le (Nat.le_add_right _ _),
    Nat.add_sub_cancel_left, drop_of_length_le (by omega), append_nil]

theorem writeAt_end (buf : List UInt8) : writeAt data data.length buf = data ++ buf := by
  cases buf with
  | nil => rw [writeAt_nil, append_nil]
  | cons b bs =>
      have h := writeAt_beyond data 0 (cons_ne_nil b bs)
      rwa [Nat.add_zero, replicate_zero, append_nil] at h

/-- Writing over what stands somewhere in the file. -/
theorem writeAt_middle (front old back : List UInt8) (hlen : buf.length = old.length) :
    writeAt (front ++ old ++ back) front.length buf = front ++ buf ++ back := by
  rw [writeAt]
  split
  · rename_i hempty
    have hnil := isEmpty_iff.mp hempty
    rw [hnil] at hlen ⊢
    rw [length_eq_zero_iff.mp hlen.symm]
  · have hgap : front.length - (front ++ old ++ back).length = 0 := by simp
    have htake : (front ++ old ++ back).take front.length = front := by
      rw [append_assoc, take_left]
    have hdrop : (front ++ old ++ back).drop (front.length + buf.length) = back := by
      rw [hlen, ← length_append, drop_left]
    rw [hgap, htake, hdrop, replicate_zero, append_nil]

/-! ## numbers -/

/-- The bytes of a number, the lowest first. -/
def u32 (x : UInt32) : List UInt8 :=
  [UInt8.ofNat x.toNat, UInt8.ofNat (x.toNat / 2 ^ 8), UInt8.ofNat (x.toNat / 2 ^ 16),
    UInt8.ofNat (x.toNat / 2 ^ 24)]

/-- The number at the start of a list of bytes. -/
def readU32 : List UInt8 → Option UInt32
  | a :: b :: c :: d :: _ =>
      some (UInt32.ofNat (a.toNat + b.toNat * 2 ^ 8 + c.toNat * 2 ^ 16 + d.toNat * 2 ^ 24))
  | _ => none

variable (x : UInt32)

@[simp] theorem length_u32 : (u32 x).length = 4 := rfl

theorem u32_ne_nil : u32 x ≠ [] := cons_ne_nil _ _

theorem readU32_u32 (rest : List UInt8) : readU32 (u32 x ++ rest) = some x := by
  have hx := x.toNat_lt
  have hsum : x.toNat % 2 ^ 8 + x.toNat / 2 ^ 8 % 2 ^ 8 * 2 ^ 8 +
      x.toNat / 2 ^ 16 % 2 ^ 8 * 2 ^ 16 + x.toNat / 2 ^ 24 % 2 ^ 8 * 2 ^ 24 = x.toNat := by
    omega
  simp only [u32, readU32, cons_append, UInt8.toNat_ofNat', hsum, UInt32.ofNat_toNat]

variable {bytes : List UInt8}

theorem u32_readU32 {x : UInt32} (h : readU32 bytes = some x) : u32 x = bytes.take 4 := by
  match bytes with
  | a :: b :: c :: d :: rest =>
      have ha := a.toNat_lt
      have hb := b.toNat_lt
      have hc := c.toNat_lt
      have hd := d.toNat_lt
      have hsum : x.toNat = a.toNat + b.toNat * 2 ^ 8 + c.toNat * 2 ^ 16 + d.toNat * 2 ^ 24 := by
        rw [← Option.some.inj h, UInt32.toNat_ofNat']
        omega
      have h₀ : UInt8.ofNat x.toNat = a := by
        apply UInt8.toNat_inj.mp
        rw [UInt8.toNat_ofNat']
        omega
      have h₁ : UInt8.ofNat (x.toNat / 2 ^ 8) = b := by
        apply UInt8.toNat_inj.mp
        rw [UInt8.toNat_ofNat']
        omega
      have h₂ : UInt8.ofNat (x.toNat / 2 ^ 16) = c := by
        apply UInt8.toNat_inj.mp
        rw [UInt8.toNat_ofNat']
        omega
      have h₃ : UInt8.ofNat (x.toNat / 2 ^ 24) = d := by
        apply UInt8.toNat_inj.mp
        rw [UInt8.toNat_ofNat']
        omega
      rw [u32, h₀, h₁, h₂, h₃]
      rfl

/-- The bytes of a number of 64 bits, the lowest first. -/
def u64 (x : ℕ) : List UInt8 := u32 (UInt32.ofNat x) ++ u32 (UInt32.ofNat (x / 2 ^ 32))

/-- The number of 64 bits at the start of a list of bytes. -/
def readU64 (bytes : List UInt8) : Option ℕ :=
  match readU32 bytes, readU32 (bytes.drop 4) with
  | some low, some high => some (low.toNat + high.toNat * 2 ^ 32)
  | _, _ => none

@[simp] theorem length_u64 (x : ℕ) : (u64 x).length = 8 := rfl

theorem readU64_u64 {x : ℕ} (hx : x < 2 ^ 64) (rest : List UInt8) :
    readU64 (u64 x ++ rest) = some x := by
  have hdrop : (u64 x ++ rest).drop 4 = u32 (UInt32.ofNat (x / 2 ^ 32)) ++ rest := rfl
  have hlow : (UInt32.ofNat x).toNat = x % 2 ^ 32 := UInt32.toNat_ofNat'
  have hhigh : (UInt32.ofNat (x / 2 ^ 32)).toNat = x / 2 ^ 32 % 2 ^ 32 := UInt32.toNat_ofNat'
  rw [readU64, hdrop, u64, append_assoc, readU32_u32, readU32_u32]
  simp only [hlow, hhigh]
  congr 1
  omega

/-! ## tables -/

/-- A table of numbers. -/
def words (xs : List UInt32) : List UInt8 := xs.flatMap u32

@[simp] theorem words_nil : words [] = [] := rfl

@[simp] theorem words_cons (xs : List UInt32) : words (x :: xs) = u32 x ++ words xs :=
  flatMap_cons

variable (xs : List UInt32)

@[simp] theorem words_append (ys : List UInt32) : words (xs ++ ys) = words xs ++ words ys :=
  flatMap_append

@[simp] theorem length_words : (words xs).length = 4 * xs.length := by
  induction xs with
  | nil => rfl
  | cons x xs ih =>
      rw [words_cons, length_append, length_u32, ih, length_cons]
      omega

/-- The numbers at the start of a list of bytes. -/
def readWords : ℕ → List UInt8 → Option (List UInt32)
  | 0, _ => some []
  | k + 1, bytes =>
      match readU32 bytes, readWords k (bytes.drop 4) with
      | some x, some xs => some (x :: xs)
      | _, _ => none

theorem readWords_words (rest : List UInt8) : readWords xs.length (words xs ++ rest) = some xs := by
  induction xs with
  | nil => rfl
  | cons x xs ih =>
      have hdrop : (u32 x ++ (words xs ++ rest)).drop 4 = words xs ++ rest := rfl
      rw [length_cons, words_cons, append_assoc, readWords, readU32_u32, hdrop, ih]

theorem words_injective {xs ys : List UInt32} (hlen : xs.length = ys.length)
    (h : words xs = words ys) : xs = ys := by
  have hx := readWords_words xs []
  rw [h, hlen, readWords_words ys []] at hx
  exact (Option.some.inj hx).symm

/-- The numbers that were read stand there. -/
theorem words_readWords {k : ℕ} {xs : List UInt32} (h : readWords k bytes = some xs) :
    words xs = bytes.take (4 * k) ∧ xs.length = k := by
  induction k generalizing bytes xs with
  | zero =>
      obtain rfl : [] = xs := Option.some.inj h
      exact ⟨rfl, rfl⟩
  | succ k ih =>
      rw [readWords] at h
      split at h
      · rename_i x rest hx hrest
        obtain rfl : x :: rest = xs := Option.some.inj h
        obtain ⟨hwords, hlen⟩ := ih hrest
        rw [words_cons, u32_readU32 hx, hwords, length_cons, hlen,
          ← take_add, Nat.mul_succ, Nat.add_comm 4]
        exact ⟨rfl, rfl⟩
      · cases h

/-- The number at an index of a table. -/
theorem readU32_drop_words (x : UInt32) (ys : List UInt32) (rest : List UInt8) :
    readU32 ((words (xs ++ x :: ys) ++ rest).drop (4 * xs.length)) = some x := by
  rw [← length_words, words_append, words_cons, append_assoc, drop_left, append_assoc, readU32_u32]

/-! ## texts -/

/-- The text at the start of a list of bytes, up to the zero byte that ends it. -/
def cString : List UInt8 → Option (List UInt8)
  | [] => none
  | b :: bs => if b = 0 then some [] else (cString bs).map (b :: ·)

theorem cString_append {text : List UInt8} (h : 0 ∉ text) (rest : List UInt8) :
    cString (text ++ 0 :: rest) = some text := by
  induction text with
  | nil => rfl
  | cons b bs ih =>
      rw [mem_cons, not_or] at h
      rw [cons_append, cString, if_neg (Ne.symm h.1), ih h.2]
      rfl

theorem cString_eq_some {text : List UInt8} (h : cString bytes = some text) :
    text ++ [0] <+: bytes := by
  induction bytes generalizing text with
  | nil => contradiction
  | cons b bs ih =>
      rw [cString] at h
      split at h
      · next hb =>
        rw [← Option.some.inj h, hb]
        exact ⟨bs, rfl⟩
      · obtain ⟨rest, hrest, rfl⟩ := Option.map_eq_some_iff.mp h
        exact cons_prefix_cons.2 ⟨rfl, ih hrest⟩

end V2I.ByteFile
