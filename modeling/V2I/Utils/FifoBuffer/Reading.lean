import V2I.Utils.FifoBuffer.Refines

/-!
# V2I.Utils.FifoBuffer.Reading

How the event loop fills the buffer from a socket (`append_getsize`, `append(int fd, size_t sz)`)
and looks into it without taking bytes out (`peekdata`, `seek`, `read`).
-/

namespace V2I.FifoBuffer

open List

/-! ## a socket -/

/-- What a call of `read` comes to: some bytes, or no more of them; an interrupt; nothing to
read at the moment. -/
inductive SysRead
  | got (n : Nat)
  | intr
  | again

/-- A socket: the bytes on their way, and what the calls of `read` will come to. -/
structure Socket where
  stream : List UInt8
  reads : List SysRead

/-- The loop of `nonblk_read`. -/
def nonblkReadLoop (stream : List UInt8) (nleft : Nat) : List SysRead → List UInt8 × Socket
  | [] => ([], ⟨stream, []⟩)
  | r :: reads =>
      if nleft = 0 then ([], ⟨stream, r :: reads⟩)
      else match r with
        | .intr => nonblkReadLoop stream nleft reads
        | .again => ([], ⟨stream, reads⟩)
        | .got n =>
            let nread := min (min n nleft) stream.length
            if nread = 0 then ([], ⟨stream, reads⟩)
            else
              let rest := nonblkReadLoop (stream.drop nread) (nleft - nread) reads
              (stream.take nread ++ rest.1, rest.2)

/-- `nonblk_read`: the bytes that are read; their number is the return value. -/
def nonblkRead (s : Socket) (n : Nat) : List UInt8 × Socket := nonblkReadLoop s.stream n s.reads

theorem nonblkReadLoop_spec (stream : List UInt8) (nleft : Nat) (reads : List SysRead) :
    (nonblkReadLoop stream nleft reads).1 ++ (nonblkReadLoop stream nleft reads).2.stream = stream ∧
      (nonblkReadLoop stream nleft reads).1.length ≤ nleft := by
  induction reads generalizing stream nleft with
  | nil => exact ⟨rfl, Nat.zero_le _⟩
  | cons r reads ih =>
      by_cases h0 : nleft = 0
      · cases r <;> simp [nonblkReadLoop, h0]
      cases r with
      | intr =>
          rw [nonblkReadLoop, if_neg h0]
          exact ih stream nleft
      | again =>
          rw [nonblkReadLoop, if_neg h0]
          exact ⟨rfl, Nat.zero_le _⟩
      | got n =>
          rw [nonblkReadLoop, if_neg h0]
          simp only
          split_ifs with hnone
          · exact ⟨rfl, Nat.zero_le _⟩
          · obtain ⟨hbytes, hle⟩ := ih (stream.drop (min (min n nleft) stream.length))
              (nleft - min (min n nleft) stream.length)
            refine ⟨?_, ?_⟩
            · rw [append_assoc, hbytes, take_append_drop]
            · rw [length_append, length_take]
              omega

theorem nonblkRead_spec (s : Socket) (n : Nat) :
    (nonblkRead s n).1 ++ (nonblkRead s n).2.stream = s.stream ∧ (nonblkRead s n).1.length ≤ n :=
  nonblkReadLoop_spec s.stream n s.reads

theorem length_nonblkRead (s : Socket) (n : Nat) :
    (nonblkRead s n).1.length + (nonblkRead s n).2.stream.length = s.stream.length := by
  rw [← length_append, (nonblkRead_spec s n).1]

namespace FifobufferImpl

/-! ## filling -/

/-- `append_getsize`. -/
def appendGetsize (b : FifobufferImpl) : Nat :=
  if b.chunkcnt = 0 then chunkSize - headerSize
  else if b.endAt < chunkSize then chunkSize - b.endAt
  else if b.chunkcnt < maxChunkcnt then chunkSize - headerSize
  else 0

/-- `append(int fd, size_t sz)`: the buffer left behind, the number of bytes taken and the
socket. -/
def appendFd (malloc : FifobufferImpl → Chunk) (b : FifobufferImpl) (s : Socket) (sz : Nat) :
    FifobufferImpl × Nat × Socket :=
  if sz = 0 then (b, 0, s)
  else if b.chunkcnt ≠ 0 ∧ b.endAt < chunkSize then
    let contentSize := chunkSize - b.endAt
    if contentSize < sz then
      let (src, s) := nonblkRead s contentSize
      let filled := b.writeLast b.endAt src
      if src.length < contentSize then
        ({ filled with endAt := b.endAt + src.length }, src.length, s)
      else
        match _h : appendChunk malloc { filled with endAt := headerSize } with
        | none => ({ filled with endAt := headerSize }, src.length, s)
        | some b' =>
            let rest := appendFd malloc b' s (sz - src.length)
            (rest.1, src.length + rest.2.1, rest.2.2)
    else
      let (src, s) := nonblkRead s sz
      ({ b.writeLast b.endAt src with endAt := b.endAt + src.length }, src.length, s)
  else
    match _h : appendChunk malloc b with
    | none => (b, 0, s)
    | some b' => appendFd malloc b' s sz
termination_by 2 * sz + if b.chunkcnt ≠ 0 ∧ b.endAt < chunkSize then 0 else 1
decreasing_by
  · obtain ⟨hend, hcnt⟩ := endAt_of_appendChunk _h
    rw [if_pos ⟨hcnt, by rw [hend]; decide⟩]
    omega
  · obtain ⟨hend, hcnt⟩ := endAt_of_appendChunk _h
    rw [if_pos ⟨hcnt, by rw [hend]; decide⟩]
    split_ifs
    omega

variable (malloc : FifobufferImpl → Chunk)

/-- No byte of the socket is lost. -/
theorem length_appendFd (b : FifobufferImpl) (s : Socket) (sz : Nat) :
    (appendFd malloc b s sz).2.1 + (appendFd malloc b s sz).2.2.stream.length =
      s.stream.length := by
  fun_induction appendFd malloc b s sz with
  | case1 b s => exact Nat.zero_add _
  | case2 b s sz hsz hlast contentSize hlt src s' hread filled hshort =>
      have hlen := length_nonblkRead s contentSize
      rwa [hread] at hlen
  | case3 b s sz hsz hlast contentSize hlt src s' hread filled hall hnew =>
      have hlen := length_nonblkRead s contentSize
      rwa [hread] at hlen
  | case4 b s sz hsz hlast contentSize hlt src s' hread filled hall b' hnew rest ih =>
      have hlen := length_nonblkRead s contentSize
      rw [hread] at hlen
      have hrest : rest.2.1 + rest.2.2.stream.length = s'.stream.length := ih
      simp only at hlen ⊢
      omega
  | case5 b s sz hsz hlast contentSize hle src s' hread =>
      have hlen := length_nonblkRead s sz
      rwa [hread] at hlen
  | case6 b s sz hsz hlast hnew => exact Nat.zero_add _
  | case7 b s sz hsz hlast b' hnew ih => exact ih

/-- What the last chunk can take is read in one go. -/
theorem appendFd_last {b : FifobufferImpl} (s : Socket) (h0 : b.chunkcnt ≠ 0)
    (hlt : b.endAt < chunkSize) :
    appendFd malloc b s (chunkSize - b.endAt) =
      (b.extend (nonblkRead s (chunkSize - b.endAt)).1,
        (nonblkRead s (chunkSize - b.endAt)).1.length,
        (nonblkRead s (chunkSize - b.endAt)).2) := by
  rw [appendFd, if_neg (by omega), if_pos ⟨h0, hlt⟩]
  simp only
  rw [if_neg (Nat.lt_irrefl _)]
  rfl

variable {n : Nat}

/-- **A block of `append_getsize` bytes**: those that the socket has go behind the queue. -/
theorem appendFd_spec {b : FifobufferImpl} (s : Socket) (h : Inv b) (hsize : b.appendGetsize ≠ 0)
    {b' : FifobufferImpl} {s' : Socket} (hrun : appendFd malloc b s b.appendGetsize = (b', n, s')) :
    Inv b' ∧ b'.contents ++ s'.stream = b.contents ++ s.stream ∧ b.chunkcnt ≤ b'.chunkcnt := by
  have hextend : ∀ {b₁ : FifobufferImpl}, Inv b₁ → b₁.chunkcnt ≠ 0 → b₁.endAt < chunkSize →
      appendFd malloc b₁ s (chunkSize - b₁.endAt) = (b', n, s') →
      Inv b' ∧ b'.contents ++ s'.stream = b₁.contents ++ s.stream ∧
        b₁.chunkcnt = b'.chunkcnt := by
    intro b₁ h₁ h0 hlt hrun
    obtain ⟨hbytes, hle⟩ := nonblkRead_spec s (chunkSize - b₁.endAt)
    rw [appendFd_last malloc s h0 hlt] at hrun
    cases hrun
    have hfit : b₁.endAt + (nonblkRead s (chunkSize - b₁.endAt)).1.length ≤ chunkSize := by omega
    refine ⟨inv_extend h₁ h0 hfit, ?_, rfl⟩
    rw [contents_extend h₁ h0 hfit, append_assoc, hbytes]
  by_cases hlast : b.chunkcnt ≠ 0 ∧ b.endAt < chunkSize
  · rw [appendGetsize, if_neg hlast.1, if_pos hlast.2] at hrun
    obtain ⟨hinv, hcont, hcnt⟩ := hextend h hlast.1 hlast.2 hrun
    exact ⟨hinv, hcont, Nat.le_of_eq hcnt⟩
  · have hfull : b.chunkcnt ≠ 0 → b.endAt = chunkSize := by
      intro h0
      have := h.end_le h0
      have : ¬ b.endAt < chunkSize := fun hlt => hlast ⟨h0, hlt⟩
      omega
    have hblock : b.appendGetsize = chunkSize - headerSize ∧ b.chunkcnt ≠ maxChunkcnt := by
      unfold appendGetsize at hsize ⊢
      split_ifs at hsize ⊢ with h0 hlt hmax
      · exact ⟨rfl, by rw [h0]; decide⟩
      · exact absurd ⟨h0, hlt⟩ hlast
      · exact ⟨rfl, Nat.ne_of_lt hmax⟩
      · exact absurd rfl hsize
    rw [hblock.1, appendFd, if_neg (by decide), if_neg hlast] at hrun
    split at hrun
    · rename_i hnew
      exact absurd (appendChunk_eq_none hnew) hblock.2
    · rename_i b₁ hnew
      obtain ⟨hend, hcnt₁⟩ := endAt_of_appendChunk hnew
      rw [← hend] at hrun
      obtain ⟨hinv, hcont, hcnt⟩ := hextend (inv_appendChunk h hnew) hcnt₁
        (by rw [hend]; decide) hrun
      refine ⟨hinv, ?_, ?_⟩
      · rw [hcont, contents_appendChunk h hnew hfull]
      · rw [← hcnt, (appendChunk_eq_some hnew).2]
        exact Nat.le_succ _

/-! ## looking into the buffer -/

/-- The loop of `calc_offset` over the chunks from number `i` on; `none` is the failed
`assert(_end >= start)`. -/
def calcOffsetLoop (endAt : Nat) : List Chunk → Nat → Nat → Nat → Option (Nat × Nat)
  | [], i, pos, start => some (i - 1, pos + start - headerSize)
  | _ :: cs, i, pos, start =>
      if cs.isEmpty ∧ ¬ start ≤ endAt then none
      else
        let chksz := if cs.isEmpty then endAt - start else chunkSize - start
        if pos < chksz then some (i, pos + start - headerSize)
        else calcOffsetLoop endAt cs (i + 1) (pos - chksz) headerSize

/-- `calc_offset`: the chunk and the offset in it, or nothing behind the end. -/
def calcOffset (b : FifobufferImpl) (pos : Nat) : Option (Option (Nat × Nat)) :=
  if b.getsize ≤ pos then some none
  else (calcOffsetLoop b.endAt b.chunklist 0 pos b.startAt).map some

/-- The loop of `read_data` over the chunks from number `i` on: the bytes, and the last chunk
read from with the offset behind them; `none` is the failed `assert(pos <= _end)`. -/
def readDataLoop (endAt : Nat) :
    List Chunk → Nat → Nat → Nat → Option (List UInt8 × Option (Nat × Nat))
  | [], _, _, _ => some ([], none)
  | chk :: cs, i, pos, sz =>
      if sz = 0 then some ([], none)
      else if cs.isEmpty ∧ ¬ pos ≤ endAt then none
      else
        let remain := if cs.isEmpty then endAt - pos else chunkSize - pos
        if sz ≤ remain then some (chk.read pos sz, some (i, pos + sz))
        else
          match readDataLoop endAt cs (i + 1) headerSize (sz - remain) with
          | none => none
          | some (out, last) => some (chk.read pos remain ++ out, last.or (some (i, pos + remain)))

/-- `peekdata`: the bytes that are copied; their number is the return value. -/
def peekdata (b : FifobufferImpl) (pos sz : Nat) : Option (List UInt8) :=
  match b.calcOffset pos with
  | none => none
  | some none => some []
  | some (some (i, off)) =>
      (readDataLoop b.endAt (b.chunklist.drop i) i (off + headerSize) sz).map Prod.fst

/-- `seek` with `seek_set`. -/
def seek (b : FifobufferImpl) (pos : Nat) : Option (FifobufferImpl × Int) :=
  match b.calcOffset pos with
  | none => none
  | some none => some (b, -1)
  | some (some (i, off)) => some ({ b with chkoff := some i, offset := off }, 0)

/-- `getoffset`: the chunk of the cursor, and the offset there, counted with the header. -/
def getoffset (b : FifobufferImpl) : Nat × Nat :=
  match b.chkoff with
  | some i => (i, b.offset + headerSize)
  | none => (0, b.startAt + b.offset)

/-- The loop of `calc_offset_delta` over the chunks from number `i` on; the inner `none` is
`-EEOF`, the outer one the failed `assert(_end >= start)`. -/
def calcOffsetDeltaLoop (endAt : Nat) : List Chunk → Nat → Nat → Nat → Option (Option (Nat × Nat))
  | [], _, _, _ => some none
  | _ :: cs, i, delta, start =>
      if cs.isEmpty ∧ ¬ start ≤ endAt then none
      else
        let chksz := if cs.isEmpty then endAt - start else chunkSize - start
        if delta < chksz then some (some (i, delta + start - headerSize))
        else calcOffsetDeltaLoop endAt cs (i + 1) (delta - chksz) headerSize

/-- `seek` with `seek_cur`; `-EEOF` is -1 here. -/
def seekCur (b : FifobufferImpl) (delta : Nat) : Option (FifobufferImpl × Int) :=
  if delta = 0 then some (b, 0)
  else
    match calcOffsetDeltaLoop b.endAt (b.chunklist.drop b.getoffset.1) b.getoffset.1 delta
        b.getoffset.2 with
    | none => none
    | some none => some (b, -1)
    | some (some (i, off)) => some ({ b with chkoff := some i, offset := off }, 0)

/-- `read`: from the cursor on, which moves over the bytes. -/
def read (b : FifobufferImpl) (sz : Nat) : Option (FifobufferImpl × List UInt8) :=
  if sz = 0 then some (b, [])
  else
    match readDataLoop b.endAt (b.chunklist.drop b.getoffset.1) b.getoffset.1 b.getoffset.2 sz with
    | none => none
    | some (out, none) => some (b, out)
    | some (out, some (i, off)) =>
        some ({ b with chkoff := some i, offset := off - headerSize }, out)

/-- An offset into the first of some chunks. -/
structure Inside (endAt : Nat) (cs : List Chunk) (pos : Nat) : Prop where
  ne_nil : cs ≠ []
  ge : headerSize ≤ pos
  le : pos ≤ chunkSize
  last : cs.length = 1 → pos ≤ endAt

variable {endAt : Nat} {c : Chunk} {cs : List Chunk} {pos : Nat}

/-- What a loop reads of the first chunk. -/
def remaining (endAt : Nat) (cs : List Chunk) (pos : Nat) : Nat :=
  if cs.isEmpty then endAt - pos else chunkSize - pos

theorem Inside.asserted (h : Inside endAt (c :: cs) pos) :
    ¬ (cs.isEmpty = true ∧ ¬ pos ≤ endAt) := by
  rintro ⟨hnil, hpos⟩
  exact hpos (h.last (by rw [isEmpty_iff.mp hnil]; rfl))

theorem Inside.fits (h : Inside endAt (c :: cs) pos) (hend : endAt ≤ chunkSize) :
    pos + remaining endAt cs pos ≤ chunkSize := by
  have hle := h.le
  unfold remaining
  split_ifs <;> omega

theorem Inside.tail (hcs : cs ≠ []) (hge : headerSize ≤ endAt) : Inside endAt cs headerSize :=
  ⟨hcs, Nat.le_refl _, by decide, fun _ => hge⟩

theorem chunkBytes_cons (endAt : Nat) (c : Chunk) (cs : List Chunk) (pos : Nat) :
    chunkBytes (c :: cs) pos endAt =
      c.read pos (remaining endAt cs pos) ++ chunkBytes cs headerSize endAt := by
  cases cs with
  | nil => simp [chunkBytes, remaining]
  | cons d cs => simp [chunkBytes, remaining]

/-- The offset moves inside the first chunk. -/
theorem Inside.advance (h : Inside endAt (c :: cs) pos) (hend : endAt ≤ chunkSize)
    (hn : n ≤ remaining endAt cs pos) :
    Inside endAt (c :: cs) (pos + n) ∧
      chunkBytes (c :: cs) (pos + n) endAt = (chunkBytes (c :: cs) pos endAt).drop n := by
  have hfits := h.fits hend
  have hge := h.ge
  have hrest : remaining endAt cs (pos + n) = remaining endAt cs pos - n := by
    unfold remaining
    split_ifs <;> omega
  have hlen : (c.read pos n).length = n := c.length_read (by omega)
  refine ⟨⟨cons_ne_nil _ _, by omega, by omega, fun hone => ?_⟩, ?_⟩
  · have hlast := h.last hone
    rw [remaining, if_pos (by simpa using hone)] at hn
    omega
  · rw [chunkBytes_cons, chunkBytes_cons, hrest]
    have hread := c.read_add pos n (remaining endAt cs pos - n)
    rw [Nat.add_sub_cancel' hn] at hread
    rw [hread, append_assoc, drop_left' hlen]

/-- Behind the first chunk. -/
theorem drop_chunkBytes (h : Inside endAt (c :: cs) pos) (hend : endAt ≤ chunkSize)
    (hn : remaining endAt cs pos ≤ n) :
    (chunkBytes (c :: cs) pos endAt).drop n =
      (chunkBytes cs headerSize endAt).drop (n - remaining endAt cs pos) := by
  have hlen : (c.read pos (remaining endAt cs pos)).length = remaining endAt cs pos :=
    c.length_read (h.fits hend)
  have hfirst : (c.read pos (remaining endAt cs pos)).drop n = [] :=
    drop_of_length_le (by omega)
  rw [chunkBytes_cons, drop_append, hlen, hfirst, nil_append]

variable {i start : Nat}

/-- `calc_offset_delta` finds the position. -/
theorem calcOffsetDeltaLoop_spec (hge : headerSize ≤ endAt) (hend : endAt ≤ chunkSize)
    (h : Inside endAt cs start) (hn : n < (chunkBytes cs start endAt).length) :
    ∃ k off, calcOffsetDeltaLoop endAt cs i n start = some (some (i + k, off)) ∧
      Inside endAt (cs.drop k) (off + headerSize) ∧
      chunkBytes (cs.drop k) (off + headerSize) endAt = (chunkBytes cs start endAt).drop n := by
  induction cs generalizing n start i with
  | nil => exact absurd rfl h.ne_nil
  | cons c cs ih =>
      have hlen : (c.read start (remaining endAt cs start)).length = remaining endAt cs start :=
        c.length_read (h.fits hend)
      rw [calcOffsetDeltaLoop, if_neg h.asserted]
      simp only
      rw [show (if cs.isEmpty then endAt - start else chunkSize - start) =
        remaining endAt cs start from rfl]
      rw [chunkBytes_cons, length_append, hlen] at hn
      by_cases hlt : n < remaining endAt cs start
      · obtain ⟨hinside, hbytes⟩ := h.advance hend (Nat.le_of_lt hlt)
        have hpos : n + start - headerSize + headerSize = start + n := by
          have := h.ge
          omega
        refine ⟨0, n + start - headerSize, ?_, ?_, ?_⟩
        · rw [if_pos hlt]
          rfl
        · rwa [hpos]
        · rwa [hpos]
      · have hcs : cs ≠ [] := by
          rintro rfl
          exact hlt hn
        obtain ⟨k, off, hrun, hinside, hbytes⟩ := ih (n := n - remaining endAt cs start)
          (i := i + 1) (Inside.tail hcs hge) (by omega)
        refine ⟨k + 1, off, ?_, hinside, ?_⟩
        · rw [if_neg hlt, hrun, Nat.add_assoc, Nat.add_comm 1]
        · rw [drop_succ_cons, hbytes, drop_chunkBytes h hend (Nat.le_of_not_lt hlt)]

/-- `calc_offset` finds what `calc_offset_delta` finds. -/
theorem calcOffsetLoop_of_delta {r : Nat × Nat}
    (h : calcOffsetDeltaLoop endAt cs i n start = some (some r)) :
    calcOffsetLoop endAt cs i n start = some r := by
  induction cs generalizing n start i with
  | nil => cases h
  | cons c cs ih =>
      simp only [calcOffsetDeltaLoop] at h
      simp only [calcOffsetLoop]
      split at h
      · cases h
      · next hassert =>
          rw [if_neg hassert]
          split_ifs at h ⊢
          all_goals first
            | exact ih h
            | exact Option.some.inj h

theorem calcOffsetLoop_spec (hge : headerSize ≤ endAt) (hend : endAt ≤ chunkSize)
    (h : Inside endAt cs start) (hn : n < (chunkBytes cs start endAt).length) :
    ∃ k off, calcOffsetLoop endAt cs i n start = some (i + k, off) ∧
      Inside endAt (cs.drop k) (off + headerSize) ∧
      chunkBytes (cs.drop k) (off + headerSize) endAt = (chunkBytes cs start endAt).drop n := by
  obtain ⟨k, off, hrun, hrest⟩ := calcOffsetDeltaLoop_spec hge hend h hn
  exact ⟨k, off, calcOffsetLoop_of_delta hrun, hrest⟩

/-- Behind the end it finds nothing. -/
theorem calcOffsetDeltaLoop_of_le (hge : headerSize ≤ endAt) (hend : endAt ≤ chunkSize)
    (h : Inside endAt cs start) (hn : (chunkBytes cs start endAt).length ≤ n) :
    calcOffsetDeltaLoop endAt cs i n start = some none := by
  induction cs generalizing n start i with
  | nil => exact absurd rfl h.ne_nil
  | cons c cs ih =>
      have hlen : (c.read start (remaining endAt cs start)).length = remaining endAt cs start :=
        c.length_read (h.fits hend)
      rw [chunkBytes_cons, length_append, hlen] at hn
      have hnot : ¬ n < remaining endAt cs start := by omega
      rw [calcOffsetDeltaLoop, if_neg h.asserted]
      simp only
      rw [show (if cs.isEmpty then endAt - start else chunkSize - start) =
        remaining endAt cs start from rfl, if_neg hnot]
      by_cases hcs : cs = []
      · rw [hcs]
        rfl
      · exact ih (Inside.tail hcs hge) (by omega)

/-- **`read_data`** gives the bytes from an offset on, and ends where the others begin. -/
theorem readDataLoop_spec (hge : headerSize ≤ endAt) (hend : endAt ≤ chunkSize) {sz : Nat}
    (h : Inside endAt cs pos) (hsz : sz ≠ 0) :
    ∃ k off, readDataLoop endAt cs i pos sz =
        some ((chunkBytes cs pos endAt).take sz, some (i + k, off)) ∧
      Inside endAt (cs.drop k) off ∧
      chunkBytes (cs.drop k) off endAt = (chunkBytes cs pos endAt).drop sz := by
  induction cs generalizing pos sz i with
  | nil => exact absurd rfl h.ne_nil
  | cons c cs ih =>
      have hlen : (c.read pos (remaining endAt cs pos)).length = remaining endAt cs pos :=
        c.length_read (h.fits hend)
      rw [readDataLoop, if_neg hsz, if_neg h.asserted]
      simp only
      rw [show (if cs.isEmpty then endAt - pos else chunkSize - pos) =
        remaining endAt cs pos from rfl]
      by_cases hle : sz ≤ remaining endAt cs pos
      · obtain ⟨hinside, hbytes⟩ := h.advance hend hle
        have hread := c.read_add pos sz (remaining endAt cs pos - sz)
        rw [Nat.add_sub_cancel' hle] at hread
        have hlen' : (c.read pos sz).length = sz := c.length_read (by
          have := h.fits hend
          omega)
        refine ⟨0, pos + sz, ?_, hinside, hbytes⟩
        rw [if_pos hle, chunkBytes_cons, hread, append_assoc, take_left' hlen']
        rfl
      · rw [if_neg hle]
        have htake : (chunkBytes (c :: cs) pos endAt).take sz =
            c.read pos (remaining endAt cs pos) ++
              (chunkBytes cs headerSize endAt).take (sz - remaining endAt cs pos) := by
          rw [chunkBytes_cons, take_append, hlen, take_of_length_le (by omega)]
        have hdrop := drop_chunkBytes h hend (Nat.le_of_not_le hle)
        by_cases hcs : cs = []
        · -- the last chunk has no more
          subst hcs
          obtain ⟨hinside, hbytes⟩ := h.advance hend (Nat.le_refl _)
          refine ⟨0, pos + remaining endAt [] pos, ?_, hinside, ?_⟩
          · rw [htake]
            simp [readDataLoop, chunkBytes]
          · rw [drop_zero, hbytes, hdrop, chunkBytes_cons, drop_left' hlen]
            simp [chunkBytes]
        · obtain ⟨k, off, hrun, hinside, hbytes⟩ := ih (i := i + 1) (Inside.tail hcs hge)
            (show sz - remaining endAt cs pos ≠ 0 by omega)
          refine ⟨k + 1, off, ?_, hinside, ?_⟩
          · rw [hrun, htake, Nat.add_assoc, Nat.add_comm 1]
            rfl
          · rw [drop_succ_cons, hbytes, hdrop]

section

variable {b b' : FifobufferImpl}

theorem Inv.inside (h : Inv b) (h0 : b.chunkcnt ≠ 0) : Inside b.endAt b.chunklist b.startAt := by
  refine ⟨fun hnil => ?_, h.start_ge h0, Nat.le_of_lt (h.start_lt h0), fun hone => ?_⟩
  · rw [h.count, hnil] at h0
    exact h0 rfl
  · exact h.one (h.count.trans hone)

theorem Inv.chunkcnt_ne_zero (h : Inv b) (hn : n < b.contents.length) : b.chunkcnt ≠ 0 := by
  intro h0
  rw [← getsize_eq h, getsize, if_pos h0] at hn
  exact Nat.not_lt_zero n hn

theorem calcOffset_spec (h : Inv b) (hpos : pos < b.contents.length) :
    ∃ i off, b.calcOffset pos = some (some (i, off)) ∧
      Inside b.endAt (b.chunklist.drop i) (off + headerSize) ∧
      chunkBytes (b.chunklist.drop i) (off + headerSize) b.endAt = b.contents.drop pos := by
  have h0 := h.chunkcnt_ne_zero hpos
  obtain ⟨k, off, hrun, hinside, hbytes⟩ :=
    calcOffsetLoop_spec (h.end_ge h0) (h.end_le h0) (i := 0) (h.inside h0) hpos
  refine ⟨k, off, ?_, hinside, hbytes⟩
  rw [calcOffset, if_neg (by rw [getsize_eq h]; omega), hrun, Nat.zero_add]
  rfl

/-- **Peeking** gives a part of the queue. -/
theorem peekdata_spec (h : Inv b) (pos sz : Nat) :
    b.peekdata pos sz = some ((b.contents.drop pos).take sz) := by
  unfold peekdata
  by_cases hpos : pos < b.contents.length
  · have h0 := h.chunkcnt_ne_zero hpos
    obtain ⟨i, off, hrun, hinside, hbytes⟩ := calcOffset_spec h hpos
    rw [hrun]
    simp only
    by_cases hsz : sz = 0
    · obtain ⟨c, cs, hcs⟩ := exists_cons_of_ne_nil hinside.ne_nil
      rw [hcs, readDataLoop, if_pos hsz, hsz]
      rfl
    · obtain ⟨k, off', hread, -, -⟩ :=
        readDataLoop_spec (h.end_ge h0) (h.end_le h0) (i := i) hinside hsz
      rw [hread, hbytes]
      rfl
  · have hle : b.contents.length ≤ pos := Nat.le_of_not_lt hpos
    rw [calcOffset, if_pos (by rwa [getsize_eq h]), drop_of_length_le hle, take_nil]

/-- Only the cursor may have moved. -/
def Moved (b b' : FifobufferImpl) : Prop :=
  ∃ chkoff offset, b' = { b with chkoff := chkoff, offset := offset }

theorem Moved.refl (b : FifobufferImpl) : Moved b b := ⟨_, _, rfl⟩

theorem Moved.inv (hm : Moved b b') (h : Inv b) : Inv b' := by
  obtain ⟨chkoff, offset, rfl⟩ := hm
  exact ⟨h.count, h.limit, h.start_ge, h.start_lt, h.end_ge, h.end_le, h.one⟩

theorem Moved.contents (hm : Moved b b') : b'.contents = b.contents := by
  obtain ⟨chkoff, offset, rfl⟩ := hm
  rfl

/-- The cursor stands at a position of the queue. -/
structure Cursor (b : FifobufferImpl) (pos : Nat) : Prop where
  inside : Inside b.endAt (b.chunklist.drop b.getoffset.1) b.getoffset.2
  bytes : chunkBytes (b.chunklist.drop b.getoffset.1) b.getoffset.2 b.endAt = b.contents.drop pos

/-- Taking bytes out rewinds the cursor. -/
theorem removeDiscard_rewinds {sz : Nat} (hsz : sz ≠ 0) (h0 : b.chunkcnt ≠ 0) {out : List UInt8}
    (hrun : b.removeDiscard sz = some (b', out)) : b'.chkoff = none ∧ b'.offset = 0 := by
  rw [removeDiscard, if_neg hsz, if_neg h0] at hrun
  cases hloop : b.removeLoop sz with
  | none => rw [hloop] at hrun; cases hrun
  | some p =>
      rw [hloop] at hrun
      cases hrun
      exact ⟨rfl, rfl⟩

/-- A rewound cursor stands at the start. -/
theorem cursor_of_rewound (h : Inv b) (h0 : b.chunkcnt ≠ 0) (hchkoff : b.chkoff = none)
    (hoffset : b.offset = 0) : Cursor b 0 := by
  have hget : b.getoffset = (0, b.startAt) := by
    rw [getoffset, hchkoff, hoffset]
    rfl
  refine ⟨?_, ?_⟩
  · rw [hget]
    exact h.inside h0
  · rw [hget]
    rfl

/-- Taking bytes out puts the cursor at the start of the others. -/
theorem removeDiscard_cursor (h : Inv b) {sz : Nat} (hsz : sz ≠ 0) (hlt : sz < b.contents.length)
    {out : List UInt8} (hrun : b.removeDiscard sz = some (b', out)) : Cursor b' 0 := by
  obtain ⟨b₁, hrun₁, hinv, hcont⟩ := removeDiscard_spec sz h
  obtain rfl : b₁ = b' := by
    rw [hrun₁] at hrun
    exact congrArg Prod.fst (Option.some.inj hrun)
  have h0 : b₁.chunkcnt ≠ 0 := hinv.chunkcnt_ne_zero (n := 0) (by
    rw [hcont, length_drop]
    omega)
  obtain ⟨hchkoff, hoffset⟩ := removeDiscard_rewinds hsz (h.chunkcnt_ne_zero hlt) hrun
  exact cursor_of_rewound hinv h0 hchkoff hoffset

/-- **Seeking** puts the cursor where it is wanted. -/
theorem seek_spec (h : Inv b) (hpos : pos < b.contents.length) :
    ∃ b', b.seek pos = some (b', 0) ∧ Moved b b' ∧ Cursor b' pos := by
  obtain ⟨i, off, hrun, hinside, hbytes⟩ := calcOffset_spec h hpos
  refine ⟨{ b with chkoff := some i, offset := off }, ?_, ⟨_, _, rfl⟩, hinside, hbytes⟩
  rw [seek, hrun]

/-- Behind the end there is nothing to seek. -/
theorem seek_of_le (h : Inv b) (hpos : b.contents.length ≤ pos) : b.seek pos = some (b, -1) := by
  rw [seek, calcOffset, if_pos (by rwa [getsize_eq h])]

theorem Cursor.chunkcnt_ne_zero (h : Inv b) (hc : Cursor b pos) : b.chunkcnt ≠ 0 := by
  rw [h.count]
  intro hnil
  rw [length_eq_zero_iff] at hnil
  exact hc.inside.ne_nil (by rw [hnil, drop_nil])

/-- **Moving the cursor** by a distance, to a position in the queue. -/
theorem seekCur_spec (h : Inv b) (hc : Cursor b pos) {delta : Nat} (hdelta : delta ≠ 0)
    (hlt : pos + delta < b.contents.length) :
    ∃ b', b.seekCur delta = some (b', 0) ∧ Moved b b' ∧ Cursor b' (pos + delta) := by
  have h0 := hc.chunkcnt_ne_zero h
  obtain ⟨k, off, hrun, hinside, hbytes⟩ := calcOffsetDeltaLoop_spec (h.end_ge h0) (h.end_le h0)
    (n := delta) (i := b.getoffset.1) hc.inside (by
      rw [hc.bytes, length_drop]
      omega)
  rw [drop_drop] at hinside hbytes
  rw [hc.bytes, drop_drop] at hbytes
  refine ⟨{ b with chkoff := some (b.getoffset.1 + k), offset := off }, ?_, ⟨_, _, rfl⟩, hinside,
    hbytes⟩
  rw [seekCur, if_neg hdelta, hrun]

/-- Behind the end there is nothing to move to. -/
theorem seekCur_of_le (h : Inv b) (hc : Cursor b pos) {delta : Nat} (hdelta : delta ≠ 0)
    (hle : b.contents.length ≤ pos + delta) : b.seekCur delta = some (b, -1) := by
  have h0 := hc.chunkcnt_ne_zero h
  have hrun := calcOffsetDeltaLoop_of_le (h.end_ge h0) (h.end_le h0) (n := delta)
    (i := b.getoffset.1) hc.inside (by
      rw [hc.bytes, length_drop]
      omega)
  rw [seekCur, if_neg hdelta, hrun]

/-- **Reading** gives the bytes from the cursor on, and moves it behind them. -/
theorem read_spec (h : Inv b) (hc : Cursor b pos) (sz : Nat) :
    ∃ b', b.read sz = some (b', (b.contents.drop pos).take sz) ∧ Moved b b' ∧
      Cursor b' (pos + sz) := by
  unfold read
  by_cases hsz : sz = 0
  · refine ⟨b, ?_, .refl b, ?_⟩
    · rw [if_pos hsz, hsz]
      rfl
    · rwa [hsz]
  · have h0 := hc.chunkcnt_ne_zero h
    obtain ⟨k, off, hread, hinside, hbytes⟩ := readDataLoop_spec (h.end_ge h0) (h.end_le h0)
      (i := b.getoffset.1) hc.inside hsz
    rw [drop_drop] at hinside hbytes
    rw [hc.bytes] at hread hbytes
    have hoff : off - headerSize + headerSize = off := Nat.sub_add_cancel hinside.ge
    have hget : getoffset
        { b with chkoff := some (b.getoffset.1 + k), offset := off - headerSize } =
        (b.getoffset.1 + k, off) := Prod.ext rfl hoff
    refine ⟨_, by rw [if_neg hsz, hread], ⟨_, _, rfl⟩, ?_, ?_⟩
    · rw [hget]
      exact hinside
    · rw [hget]
      exact hbytes.trans drop_drop

end

end FifobufferImpl

end V2I.FifoBuffer
