import Mathlib.Data.List.Basic

/-!
# V2I.Utils.FifoBuffer

The chunked byte FIFO of the event loop (`fifobuffer_impl`): a list of at most
`max_chunkcnt` chunks of `chunk_size` bytes, whose first `sizeof(chunk::header)`
bytes hold the list links, a start offset into the first chunk and an end offset
into the last one.

```
first chunk            middle chunks          last chunk
[hdr| ....start####]   [hdr|############]     [hdr|#####end......]
```

The functions are the ones of `fifobuffer.cpp`, in the order of that file;
`contents` is the byte string the buffer stands for, and `Inv` is what every
operation keeps.
-/

namespace V2I.FifoBuffer

open List

/-! ## chunks -/

/-- `chunk_size`. -/
def chunkSize : Nat := 4 * 1024

/-- `max_chunkcnt`. -/
def maxChunkcnt : Nat := 256

/-- `sizeof(chunk::header)`: one `listnode_t`, that is two pointers. -/
def headerSize : Nat := 16

/-- The bytes of a chunk. The links that overlay its first `headerSize` bytes are the
position of the chunk in `FifobufferImpl.chunklist`. -/
structure Chunk where
  buffer : List UInt8
  size_eq : buffer.length = chunkSize

namespace Chunk

/-- `memcpy(dst, &chk->buffer[at], n)`. -/
def read (c : Chunk) (at_ n : Nat) : List UInt8 := (c.buffer.drop at_).take n

/-- `memcpy(&chk->buffer[at], src, sz)`; bytes past the end of the chunk are lost. -/
def write (c : Chunk) (at_ : Nat) (src : List UInt8) : Chunk where
  buffer := (c.buffer.take at_ ++ src ++ c.buffer.drop (at_ + src.length)).take chunkSize
  size_eq := by
    have := c.size_eq
    simp only [length_take, length_append, length_drop]
    omega

variable (c : Chunk)

theorem length_read {at_ n : Nat} (h : at_ + n ≤ chunkSize) : (c.read at_ n).length = n := by
  have := c.size_eq
  simp only [read, length_take, length_drop]
  omega

/-- Reading nothing gives nothing. -/
@[simp] theorem read_zero (at_ : Nat) : c.read at_ 0 = [] := by
  simp [read]

/-- A read splits at any point. -/
theorem read_add (at_ m n : Nat) : c.read at_ (m + n) = c.read at_ m ++ c.read (at_ + m) n := by
  simp only [read, take_add, drop_drop]

/-- Bytes written behind the ones already there read back as both together. -/
theorem read_write {s at_ : Nat} (src : List UInt8) (hs : s ≤ at_)
    (hfit : at_ + src.length ≤ chunkSize) :
    (c.write at_ src).read s (at_ + src.length - s) = c.read s (at_ - s) ++ src := by
  have hsz := c.size_eq
  have hlen : (c.buffer.take at_).length = at_ := by
    rw [length_take]; omega
  -- The write stays inside the chunk, so nothing is cut off.
  have hall : (c.write at_ src).buffer =
      c.buffer.take at_ ++ src ++ c.buffer.drop (at_ + src.length) := by
    apply take_of_length_le
    simp only [length_append, length_take, length_drop]
    omega
  have hdrop : ((c.write at_ src).buffer.drop s).take (at_ + src.length - s) =
      (c.buffer.take at_ ++ src).drop s := by
    rw [hall, drop_append_of_le_length (by simp only [length_append]; omega)]
    apply take_left'
    simp only [length_drop, length_append]
    omega
  rw [read, hdrop, drop_append_of_le_length (by omega), drop_take, read]

end Chunk

/-! ## the buffer -/

/-- `fifobuffer_impl`: `startAt` and `endAt` are `_start` and `_end` (both counted
with the header), `offset` and `chkoff` the read cursor. -/
structure FifobufferImpl where
  chunklist : List Chunk
  startAt : Nat
  endAt : Nat
  offset : Nat
  chkoff : Option Nat
  chunkcnt : Nat

namespace FifobufferImpl

/-- The constructor: no chunk, all offsets zero. -/
def new : FifobufferImpl where
  chunklist := []
  startAt := 0
  endAt := 0
  offset := 0
  chkoff := none
  chunkcnt := 0

/-- `drain`. -/
def drain (b : FifobufferImpl) : FifobufferImpl :=
  { b with chunklist := [], startAt := 0, endAt := 0, chunkcnt := 0, chkoff := none, offset := 0 }

/-- `empty`. -/
def empty (b : FifobufferImpl) : Bool :=
  if b.chunkcnt = 0 then true
  else if b.chunkcnt = 1 ∧ b.startAt = b.endAt then true
  else false

/-- `getsize`. -/
def getsize (b : FifobufferImpl) : Nat :=
  if b.chunkcnt = 0 then 0
  else chunkSize * b.chunkcnt - b.startAt - (chunkSize - b.endAt) -
    headerSize * (b.chunkcnt - 1)

/-- `release_chunk`: free the first chunk. -/
def releaseChunk (b : FifobufferImpl) : FifobufferImpl :=
  if b.chunkcnt = 0 then b
  else if b.chunkcnt - 1 = 0 then
    { b with chunklist := b.chunklist.tail, chunkcnt := b.chunkcnt - 1, startAt := 0, endAt := 0 }
  else
    { b with chunklist := b.chunklist.tail, chunkcnt := b.chunkcnt - 1, startAt := headerSize }

/-- `append_chunk`: a new last chunk, or `none` at the limit. What `malloc` leaves in
the new chunk is arbitrary. -/
def appendChunk (malloc : FifobufferImpl → Chunk) (b : FifobufferImpl) : Option FifobufferImpl :=
  if b.chunkcnt = maxChunkcnt then none
  else some { b with
    endAt := headerSize
    startAt := if b.chunkcnt = 0 then headerSize else b.startAt
    chunklist := b.chunklist ++ [malloc b]
    chunkcnt := b.chunkcnt + 1 }

variable {malloc : FifobufferImpl → Chunk}

/-- A chunk is appended only below the limit. -/
theorem appendChunk_eq_some {b b' : FifobufferImpl} (h : appendChunk malloc b = some b') :
    b.chunkcnt ≠ maxChunkcnt ∧ b' = { b with
      endAt := headerSize
      startAt := if b.chunkcnt = 0 then headerSize else b.startAt
      chunklist := b.chunklist ++ [malloc b]
      chunkcnt := b.chunkcnt + 1 } := by
  unfold appendChunk at h
  by_cases hmax : b.chunkcnt = maxChunkcnt
  · rw [if_pos hmax] at h; contradiction
  · rw [if_neg hmax, Option.some.injEq] at h
    exact ⟨hmax, h.symm⟩

theorem endAt_of_appendChunk {b b' : FifobufferImpl} (h : appendChunk malloc b = some b') :
    b'.endAt = headerSize ∧ b'.chunkcnt ≠ 0 := by
  rw [(appendChunk_eq_some h).2]
  exact ⟨rfl, Nat.succ_ne_zero _⟩

/-- The loop of `remove_discard`: the buffer left behind and the bytes copied out.
`none` stands for the failed `assert(_start <= _end)`, or for a chunk taken off an
empty list. -/
def removeLoop (b : FifobufferImpl) (sz : Nat) : Option (FifobufferImpl × List UInt8) :=
  if _h : b.chunkcnt = 0 then some (b, [])
  else match b.chunklist with
    | [] => none
    | chk :: _ =>
        if b.chunkcnt = 1 ∧ ¬ b.startAt ≤ b.endAt then none
        else
          let contentSize :=
            if b.chunkcnt = 1 then b.endAt - b.startAt else chunkSize - b.startAt
          if contentSize ≤ sz then
            -- the chunk is drained, it is released
            match removeLoop b.releaseChunk (sz - contentSize) with
            | none => none
            | some (b', out) => some (b', chk.read b.startAt contentSize ++ out)
          else some ({ b with startAt := b.startAt + sz }, chk.read b.startAt sz)
termination_by b.chunkcnt
decreasing_by
  unfold releaseChunk
  split_ifs <;> simp only <;> omega

/-- `remove_discard`: the bytes are what `memcpy` moves to `buf`; their number is the
return value, also when `buf` is null. -/
def removeDiscard (b : FifobufferImpl) (sz : Nat) : Option (FifobufferImpl × List UInt8) :=
  if sz = 0 then some (b, [])
  else if b.chunkcnt = 0 then some (b, [])
  else match b.removeLoop sz with
    | none => none
    | some (b', out) => some ({ b' with chkoff := none, offset := 0 }, out)

/-- `remove`. -/
def remove (b : FifobufferImpl) (sz : Nat) : Option (FifobufferImpl × List UInt8) :=
  b.removeDiscard sz

/-- `discard`: only the number of bytes comes back. -/
def discard (b : FifobufferImpl) (sz : Nat) : Option (FifobufferImpl × Nat) :=
  (b.removeDiscard sz).map fun p => (p.1, p.2.length)

/-- `memcpy` into the last chunk, `_chunklist.prev`. -/
def writeLast (b : FifobufferImpl) (at_ : Nat) (src : List UInt8) : FifobufferImpl :=
  { b with chunklist := b.chunklist.dropLast ++ (b.chunklist.getLast?.map (·.write at_ src)).toList }

/-- The loop of `append`: the buffer left behind and the number of bytes taken. -/
def appendLoop (malloc : FifobufferImpl → Chunk) (b : FifobufferImpl) (src : List UInt8) :
    FifobufferImpl × Nat :=
  if src.length = 0 then (b, 0)
  else if b.chunkcnt ≠ 0 ∧ b.endAt < chunkSize then
    let contentSize := chunkSize - b.endAt
    if contentSize < src.length then
      -- `_end` is rewound before it is known whether a new chunk can be had
      let filled := { b.writeLast b.endAt (src.take contentSize) with endAt := headerSize }
      match _h : appendChunk malloc filled with
      | none => (filled, contentSize)
      | some b' =>
          let rest := appendLoop malloc b' (src.drop contentSize)
          (rest.1, contentSize + rest.2)
    else ({ b.writeLast b.endAt src with endAt := b.endAt + src.length }, src.length)
  else
    match _h : appendChunk malloc b with
    | none => (b, 0)
    | some b' => appendLoop malloc b' src
termination_by 2 * src.length + if b.chunkcnt ≠ 0 ∧ b.endAt < chunkSize then 0 else 1
decreasing_by
  · obtain ⟨hend, hcnt⟩ := endAt_of_appendChunk _h
    rw [if_pos ⟨hcnt, by rw [hend]; decide⟩, length_drop]
    omega
  · obtain ⟨hend, hcnt⟩ := endAt_of_appendChunk _h
    rw [if_pos ⟨hcnt, by rw [hend]; decide⟩]
    split_ifs
    omega

/-- `append(void* buf, size_t sz)`, `src` being the `sz` bytes at `buf`. -/
def append (malloc : FifobufferImpl → Chunk) (b : FifobufferImpl) (src : List UInt8) :
    FifobufferImpl × Nat :=
  if src.length = 0 then (b, 0) else appendLoop malloc b src

end FifobufferImpl

end V2I.FifoBuffer
