import V2I.Lib.ByteFile
import Mathlib.Data.List.Infix

/-!
# V2I.Lib.Packing

A buffer of a fixed size into which pieces are written one after the other, each at a place of its
own. Afterwards they are all there exactly if they agree wherever their places overlap
(`putAll_stands_iff`); pieces that lie one behind the other never overlap (`put_fill`).
-/

namespace V2I.Packing

open V2I.ByteFile List Option

variable {α : Type*}

/-! ## writing and reading -/

/-- Writing into a buffer; nothing comes out where the bytes do not fit. -/
def put (buf : List α) (pos : ℕ) (bytes : List α) : Option (List α) :=
  if pos + bytes.length ≤ buf.length then
    some (buf.take pos ++ (bytes ++ buf.drop (pos + bytes.length)))
  else none

/-- The bytes at a place of a buffer. -/
def get (buf : List α) (pos n : ℕ) : Option (List α) :=
  if pos + n ≤ buf.length then some ((buf.drop pos).take n) else none

variable {buf bytes : List α} {pos : ℕ}

theorem put_isSome_iff : (put buf pos bytes).isSome ↔ pos + bytes.length ≤ buf.length := by
  rw [put]
  split
  · next hfit => exact iff_of_true rfl hfit
  · next hfit => exact iff_of_false Bool.false_ne_true hfit

theorem length_put {buf' : List α} (h : put buf pos bytes = some buf') :
    buf'.length = buf.length := by
  rw [put] at h
  split at h
  · next hfit =>
    rw [← some.inj h]
    simp only [length_append, length_take, length_drop]
    omega
  · contradiction

/-- What is written stands at its place, and everything else is as it was. -/
theorem getElem?_put {buf' : List α} (h : put buf pos bytes = some buf') (k : ℕ) :
    buf'[k]? = if pos ≤ k ∧ k < pos + bytes.length then bytes[k - pos]? else buf[k]? := by
  rw [put] at h
  split at h
  · next hfit =>
    have htake : (buf.take pos).length = pos := by
      rw [length_take]
      omega
    rw [← some.inj h]
    rcases Nat.lt_or_ge k pos with hk | hk
    · rw [getElem?_append_left (by omega), getElem?_take_of_lt hk, if_neg (by omega)]
    · rw [getElem?_append_right (by omega), htake]
      rcases Nat.lt_or_ge k (pos + bytes.length) with hk' | hk'
      · rw [getElem?_append_left (by omega), if_pos ⟨hk, hk'⟩]
      · rw [getElem?_append_right (by omega), getElem?_drop, if_neg (by omega)]
        congr 1
        omega
  · contradiction

theorem length_get {n : ℕ} (h : get buf pos n = some bytes) : bytes.length = n := by
  rw [get] at h
  split at h
  · rw [← some.inj h, length_take, length_drop]
    omega
  · contradiction

/-! ## pieces one behind the other -/

/-- A buffer whose first bytes are the given pieces. -/
def fill (buf : List α) (pieces : List (List α)) : List α :=
  pieces.flatten ++ buf.drop pieces.flatten.length

theorem fill_nil (buf : List α) : fill buf [] = buf := by
  simp [fill]

variable {pieces : List (List α)}

theorem length_fill (h : pieces.flatten.length ≤ buf.length) :
    (fill buf pieces).length = buf.length := by
  rw [fill, length_append, length_drop]
  omega

/-- The next piece goes behind those that are there. -/
theorem put_fill {piece : List α} (h : (pieces ++ [piece]).flatten.length ≤ buf.length) :
    put (fill buf pieces) pieces.flatten.length piece = some (fill buf (pieces ++ [piece])) := by
  simp only [flatten_append, flatten_singleton, length_append] at h
  rw [put, if_pos (by rwa [length_fill (by omega)]), fill, fill, take_left, ← drop_drop, drop_left,
    drop_drop, flatten_append, flatten_singleton, length_append, append_assoc]

/-- Behind the pieces nothing has changed. -/
theorem drop_fill {n : ℕ} (h : pieces.flatten.length ≤ n) :
    (fill buf pieces).drop n = buf.drop n := by
  rw [fill, drop_append, drop_eq_nil_of_le h, nil_append, drop_drop]
  congr 1
  omega

/-- A text among the pieces. -/
theorem cString_fill {buf text : List UInt8} {front back : List (List UInt8)} (h : 0 ∉ text) :
    cString ((fill buf (front ++ (text ++ [0]) :: back)).drop front.flatten.length) =
      some text := by
  rw [fill, flatten_append, append_assoc, drop_left, flatten_cons,
    append_assoc, append_assoc, singleton_append, cString_append h]

/-! ## pieces at places of their own -/

/-- A piece and the place where it goes. -/
structure Piece (α : Type*) where
  pos : ℕ
  bytes : List α

namespace Piece

/-- The first place behind the piece. -/
def stop (p : Piece α) : ℕ := p.pos + p.bytes.length

/-- The piece stands at its place. -/
def Stands (p : Piece α) (buf : List α) : Prop := p.bytes <+: buf.drop p.pos

/-- Wherever both pieces go, they bring the same. -/
def Agrees (p q : Piece α) : Prop :=
  ∀ i j, i < p.bytes.length → j < q.bytes.length → p.pos + i = q.pos + j →
    p.bytes[i]? = q.bytes[j]?

variable {p : Piece α} {q : Piece α}

theorem agrees_of_stop_le (h : p.stop ≤ q.pos) : p.Agrees q := by
  intro i j hi _ hij
  rw [stop] at h
  omega

variable {buf : List α}

theorem stands_iff : p.Stands buf ↔ ∀ i < p.bytes.length, buf[p.pos + i]? = p.bytes[i]? := by
  rw [Stands, prefix_iff_getElem?]
  refine forall₂_congr fun i hi => ?_
  rw [getElem?_drop, getElem?_eq_getElem hi]

/-- Two pieces that stand in one buffer agree. -/
theorem Stands.agrees (hp : p.Stands buf) (hq : q.Stands buf) : p.Agrees q := by
  intro i j hi hj hij
  rw [← stands_iff.1 hp i hi, ← stands_iff.1 hq j hj, hij]

theorem stands_put {buf' : List α} (h : put buf p.pos p.bytes = some buf') : p.Stands buf' := by
  refine stands_iff.2 fun i hi => ?_
  rw [getElem?_put h, if_pos (by omega), Nat.add_sub_cancel_left]

/-- A piece stays where it stands if what is written agrees with it. -/
theorem Stands.put {buf' : List α} (hp : p.Stands buf) (hpq : p.Agrees q)
    (h : put buf q.pos q.bytes = some buf') : p.Stands buf' := by
  refine stands_iff.2 fun i hi => ?_
  rw [getElem?_put h]
  split
  · next hk => exact (hpq i (p.pos + i - q.pos) hi (by omega) (by omega)).symm
  · exact stands_iff.1 hp i hi

/-- What stands in the front of a buffer. -/
theorem stands_take_iff {n : ℕ} (hne : p.bytes ≠ []) :
    p.Stands (buf.take n) ↔ p.Stands buf ∧ p.stop ≤ n := by
  have hpos := length_pos_iff.2 hne
  rw [stands_iff, stands_iff, stop]
  constructor
  · intro h
    have hlast := h (p.bytes.length - 1) (by omega)
    rw [getElem?_take, p.bytes.getElem?_eq_getElem (by omega)] at hlast
    refine ⟨fun i hi => ?_, ?_⟩
    · have hi' := h i hi
      rw [getElem?_take] at hi'
      split at hi'
      · exact hi'
      · rw [getElem?_eq_getElem hi] at hi'
        contradiction
    · split at hlast
      · omega
      · contradiction
  · rintro ⟨h, hstop⟩ i hi
    rw [getElem?_take_of_lt (by omega), h i hi]

end Piece

/-- Writing pieces one after the other. -/
def putAll (buf : List α) : List (Piece α) → Option (List α)
  | [] => some buf
  | p :: ps => (put buf p.pos p.bytes).bind fun buf => putAll buf ps

theorem putAll_append (buf : List α) (ps qs : List (Piece α)) :
    putAll buf (ps ++ qs) = (putAll buf ps).bind fun buf => putAll buf qs := by
  induction ps generalizing buf with
  | nil => rfl
  | cons p ps ih =>
      rw [cons_append, putAll, putAll, bind_assoc]
      exact bind_congr fun buf _ => ih buf

variable {pieces : List (Piece α)} {buf : List α}

/-- Everything can be written exactly if every piece ends within the buffer. -/
theorem putAll_isSome_iff : (putAll buf pieces).isSome ↔ ∀ p ∈ pieces, p.stop ≤ buf.length := by
  induction pieces generalizing buf with
  | nil => simp [putAll]
  | cons p ps ih =>
      rw [putAll, forall_mem_cons]
      have hfit : p.stop ≤ buf.length ↔ _ := put_isSome_iff.symm
      cases hput : put buf p.pos p.bytes with
      | none => simp [hfit, hput]
      | some buf' =>
          rw [bind_some, ih, length_put hput, hfit, hput]
          exact (and_iff_right rfl).symm

/-- A piece stays where it stands if everything that is written agrees with it. -/
theorem Piece.Stands.putAll {p : Piece α} {buf' : List α} (hp : p.Stands buf)
    (hall : ∀ q ∈ pieces, p.Agrees q) (h : putAll buf pieces = some buf') : p.Stands buf' := by
  induction pieces generalizing buf with
  | nil => rwa [← some.inj h]
  | cons q qs ih =>
      obtain ⟨hq, hqs⟩ := forall_mem_cons.1 hall
      obtain ⟨mid, hput, hrest⟩ := bind_eq_some_iff.1 h
      exact ih (hp.put hq hput) hqs hrest

/-- **Pieces are all there exactly if they agree where their places overlap.** -/
theorem putAll_stands_iff {buf' : List α} (h : putAll buf pieces = some buf') :
    (∀ p ∈ pieces, p.Stands buf') ↔ pieces.Pairwise Piece.Agrees := by
  constructor
  · intro hall
    exact pairwise_of_forall_mem_list fun p hp q hq => (hall p hp).agrees (hall q hq)
  · intro hpair
    induction pieces generalizing buf with
    | nil => exact fun p hp => absurd hp not_mem_nil
    | cons p ps ih =>
        obtain ⟨hp, hps⟩ := pairwise_cons.1 hpair
        obtain ⟨mid, hput, hrest⟩ := bind_eq_some_iff.1 h
        exact forall_mem_cons.2
          ⟨(Piece.stands_put hput).putAll hp hrest, ih hrest hps⟩

/-- Reading a piece that is not empty. -/
theorem get_eq_some_iff (hne : bytes ≠ []) :
    get buf pos bytes.length = some bytes ↔ (Piece.mk pos bytes).Stands buf := by
  have hpos := length_pos_iff.2 hne
  rw [get, Piece.Stands, prefix_iff_eq_take]
  constructor
  · intro h
    split at h
    · exact (some.inj h).symm
    · contradiction
  · intro h
    have hlen := congrArg List.length h
    rw [length_take, length_drop] at hlen
    rw [if_pos (by dsimp only at hlen; omega), ← h]

/-- Reading a text. -/
theorem cString_drop_eq_some_iff {buf text : List UInt8} (h : 0 ∉ text) :
    cString (buf.drop pos) = some text ↔ (Piece.mk pos (text ++ [0])).Stands buf := by
  rw [Piece.Stands]
  constructor
  · exact cString_eq_some
  · rintro ⟨rest, hrest⟩
    rw [← hrest, append_assoc, singleton_append, cString_append h]

end V2I.Packing
