import Mathlib.Algebra.Order.Ring.Nat
import Mathlib.Data.List.Basic

/-!
# V2I.Lib.Zlib

A file that is read from the front: what is left of it, and whether its end has been noticed.
The end is noticed by a read that gets less than it asks for.
-/

namespace V2I

/-- A `FILE*` opened for reading. -/
structure Reader where
  rest : List UInt8
  eof : Bool

namespace Reader

/-- A file that has just been opened. -/
def opened (content : List UInt8) : Reader := ⟨content, false⟩

/-- `fread(buf, 1, n, fp)`: the bytes that are read. -/
def fread (f : Reader) (n : ℕ) : List UInt8 × Reader :=
  (f.rest.take n, ⟨f.rest.drop n, f.eof || f.rest.length < n⟩)

/-- A read that fits leaves the end unnoticed. -/
theorem fread_of_le {content : List UInt8} {n : ℕ} (hn : n ≤ content.length) :
    (opened content).fread n = (content.take n, opened (content.drop n)) := by
  simp [fread, opened, Nat.not_lt.mpr hn]

/-- A read that asks for more notices the end. -/
theorem fread_of_lt {content : List UInt8} {n : ℕ} (hn : content.length < n) :
    (opened content).fread n = (content, ⟨[], true⟩) := by
  simp [fread, opened, hn, List.take_of_length_le (Nat.le_of_lt hn), Nat.le_of_lt hn]

end Reader

end V2I

/-!
## Streams

The compression library. A program is verified against every pair of functions that does what
the manual says: a `Zlib` carries them with these facts.
-/

namespace V2I

/-- What a program uses of `zlib`. -/
structure Zlib where
  /-- The most bytes that so many bytes compress to. -/
  compressBound : ℕ → ℕ
  /-- What a source compresses to at a level. -/
  deflate : List UInt8 → ℕ → List UInt8
  /-- The decompressor. -/
  uncompress : List UInt8 → Option (List UInt8)
  /-- The bound of what has a length of 32 bits is an unsigned long. -/
  compressBound_lt : ∀ n < 2 ^ 32, compressBound n < 2 ^ 64
  /-- It does not fall with the number of bytes. -/
  compressBound_mono : Monotone compressBound
  length_deflate_le : ∀ src level, 1 ≤ level → level ≤ 9 →
    (deflate src level).length ≤ compressBound src.length
  uncompress_deflate : ∀ src level, 1 ≤ level → level ≤ 9 →
    uncompress (deflate src level) = some src

/-- `compress2(dest, &destLen, src, level)` with room for `destLen` bytes; there is no result when
they are not enough. -/
def Zlib.compress2 (z : Zlib) (destLen : ℕ) (src : List UInt8) (level : ℕ) : Option (List UInt8) :=
  if (z.deflate src level).length ≤ destLen then some (z.deflate src level) else none

/-- Room for the bound of a longer source is enough. -/
theorem Zlib.compress2_of_le (z : Zlib) {n level : ℕ} {src : List UInt8} (hsrc : src.length ≤ n)
    (hlow : 1 ≤ level) (hhigh : level ≤ 9) :
    z.compress2 (z.compressBound n) src level = some (z.deflate src level) :=
  if_pos ((z.length_deflate_le src level hlow hhigh).trans (z.compressBound_mono hsrc))

/-- Bytes that are stored as they are. -/
def Zlib.stored : Zlib where
  compressBound n := n
  deflate src _ := src
  uncompress src := some src
  compressBound_lt _ hn := hn.trans (by decide)
  compressBound_mono := monotone_id
  length_deflate_le _ _ _ _ := le_rfl
  uncompress_deflate _ _ _ _ := rfl

end V2I
