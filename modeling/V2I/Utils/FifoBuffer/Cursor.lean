import V2I.Utils.FifoBuffer.Reading

/-!
# V2I.Utils.FifoBuffer.Cursor

The read cursor of the buffer as a position in its queue, over every sequence of calls.

`_chkoff` and `_offset` are at their start values on a buffer without chunks, and mark the bytes
behind the position on any other (`Stands`). A call with size 0 returns at once: it rewinds
nothing and never fails.
-/

namespace V2I.FifoBuffer

open List Option Machine

namespace FifobufferImpl

/-! ## where the cursor stands -/

/-- The cursor stands at a position of the queue, or behind its last byte. -/
structure Stands (b : FifobufferImpl) (pos : Nat) : Prop where
  rewound : b.chunkcnt = 0 → b.chkoff = none ∧ b.offset = 0
  cursor : b.chunkcnt ≠ 0 → Cursor b pos
  le : pos ≤ b.contents.length

variable {b b' : FifobufferImpl} {src : List UInt8} {pos : Nat}

theorem Inv.contents_eq_nil (h : Inv b) (h0 : b.chunkcnt = 0) : b.contents = [] := by
  rw [← length_eq_zero_iff, ← getsize_eq h, getsize, if_pos h0]

theorem Inv.chunklist_eq_nil (h : Inv b) (h0 : b.chunkcnt = 0) : b.chunklist = [] := by
  rw [← length_eq_zero_iff, ← h.count, h0]

theorem stands_of_rewound (h : Inv b) (hchkoff : b.chkoff = none) (hoffset : b.offset = 0) :
    Stands b 0 :=
  ⟨fun _ => ⟨hchkoff, hoffset⟩, fun h0 => cursor_of_rewound h h0 hchkoff hoffset, Nat.zero_le _⟩

theorem Stands.eq_zero (hs : Stands b pos) (h : Inv b) (h0 : b.chunkcnt = 0) : pos = 0 := by
  have hle := hs.le
  rw [h.contents_eq_nil h0] at hle
  exact Nat.le_zero.mp hle

/-- Two positions with the same bytes behind them. -/
theorem Cursor.of_drop_eq {pos' : Nat} (hc : Cursor b pos)
    (hdrop : b.contents.drop pos = b.contents.drop pos') : Cursor b pos' :=
  ⟨hc.inside, hc.bytes.trans hdrop⟩

/-! ## appending -/

/-- The chunk of the cursor and those behind it, the last one set apart. -/
theorem Cursor.exists_concat (h : Inv b) (hc : Cursor b pos) :
    ∃ cs c, b.chunklist = cs ++ [c] ∧ b.getoffset.1 ≤ cs.length := by
  obtain ⟨cs, c, hcs, -⟩ := FifobufferImpl.exists_concat h (hc.chunkcnt_ne_zero h)
  refine ⟨cs, c, hcs, ?_⟩
  have hne := hc.inside.ne_nil
  rw [hcs, ne_eq, drop_eq_nil_iff, length_append, length_singleton] at hne
  omega

/-- Bytes written behind the end do not move the cursor. -/
theorem Cursor.extend (h : Inv b) (hc : Cursor b pos) (hle : pos ≤ b.contents.length)
    (hfit : b.endAt + src.length ≤ chunkSize) : Cursor (b.extend src) pos := by
  have h0 := hc.chunkcnt_ne_zero h
  obtain ⟨cs, c, hcs, hi⟩ := hc.exists_concat h
  have hinside := hc.inside
  have hbytes := hc.bytes
  have hdrop : ∀ d : Chunk, (cs ++ [d]).drop b.getoffset.1 = cs.drop b.getoffset.1 ++ [d] :=
    fun d => drop_append_of_le_length hi
  have hlist : (b.extend src).chunklist = cs ++ [c.write b.endAt src] := by
    simp [FifobufferImpl.extend, writeLast, hcs]
  have hget : (b.extend src).getoffset = b.getoffset := rfl
  rw [hcs, hdrop] at hinside hbytes
  refine ⟨?_, ?_⟩
  · rw [hget, hlist, hdrop]
    exact ⟨by simp, hinside.ge, hinside.le, fun hone => Nat.le_add_right_of_le
      (hinside.last (by simpa using hone))⟩
  · rw [hget, hlist, hdrop, contents_extend h h0 hfit, drop_append_of_le_length hle, ← hbytes]
    refine chunkBytes_write src c (h.end_ge h0) (fun hnil => hinside.last ?_) hfit
    rw [hnil]
    rfl

variable {malloc : FifobufferImpl → Chunk}

/-- Neither does a fresh chunk behind a full one. -/
theorem Cursor.appendChunk (h : Inv b) (hc : Cursor b pos) (hfull : b.endAt = chunkSize)
    (hnew : appendChunk malloc b = some b') : Cursor b' pos := by
  have h0 := hc.chunkcnt_ne_zero h
  have hcont := contents_appendChunk h hnew (fun _ => hfull)
  have hbytes := hc.bytes
  have hinside := hc.inside
  obtain ⟨cs, c, hcs, hi⟩ := hc.exists_concat h
  have hlen : b.getoffset.1 ≤ b.chunklist.length := by
    rw [hcs, length_append]
    omega
  obtain ⟨-, rfl⟩ := appendChunk_eq_some hnew
  rw [if_neg h0] at hcont ⊢
  refine ⟨⟨?_, hinside.ge, hinside.le, fun hone => ?_⟩, ?_⟩
  · show (b.chunklist ++ [malloc b]).drop b.getoffset.1 ≠ []
    rw [drop_append_of_le_length hlen]
    simp
  · replace hone : ((b.chunklist ++ [malloc b]).drop b.getoffset.1).length = 1 := hone
    rw [drop_append_of_le_length hlen, length_append, length_singleton] at hone
    exact absurd (length_eq_zero_iff.mp (Nat.succ.inj hone)) hinside.ne_nil
  · rw [hcont, ← hbytes, hfull]
    show chunkBytes ((b.chunklist ++ [malloc b]).drop b.getoffset.1) b.getoffset.2 headerSize = _
    rw [drop_append_of_le_length hlen, chunkBytes_concat _ hinside.ne_nil]

theorem Stands.appendChunk (h : Inv b) (hs : Stands b pos)
    (hfull : b.chunkcnt ≠ 0 → b.endAt = chunkSize) (hnew : appendChunk malloc b = some b') :
    Stands b' pos := by
  by_cases h0 : b.chunkcnt = 0
  · obtain ⟨hchkoff, hoffset⟩ := hs.rewound h0
    rw [hs.eq_zero h h0]
    refine stands_of_rewound (inv_appendChunk h hnew) ?_ ?_
    · rw [(appendChunk_eq_some hnew).2]
      exact hchkoff
    · rw [(appendChunk_eq_some hnew).2]
      exact hoffset
  · refine ⟨fun h0' => absurd h0' (endAt_of_appendChunk hnew).2,
      fun _ => (hs.cursor h0).appendChunk h (hfull h0) hnew, ?_⟩
    rw [contents_appendChunk h hnew hfull]
    exact hs.le

theorem Stands.extend (h : Inv b) (hs : Stands b pos) (h0 : b.chunkcnt ≠ 0)
    (hfit : b.endAt + src.length ≤ chunkSize) : Stands (b.extend src) pos := by
  refine ⟨fun h0' => absurd h0' h0, fun _ => (hs.cursor h0).extend h hs.le hfit, ?_⟩
  rw [contents_extend h h0 hfit, length_append]
  exact Nat.le_add_right_of_le hs.le

variable (malloc : FifobufferImpl → Chunk)

/-- **Appending** leaves the cursor where it is. -/
theorem Appends.stands {r : FifobufferImpl × Nat} (ha : Appends b src r) (h : Inv b)
    (hs : Stands b pos) (hfit : src.length ≤ b.room ∨ b.room = 0) : Stands r.1 pos := by
  induction ha with
  | done => exact hs
  | full => exact hs
  | cut hmax hlt hcut =>
      rw [room_of_eq_max hmax] at hfit
      omega
  | write h0 hend hmore hrest ih =>
      obtain ⟨hle, hroom⟩ := room_extend h0 hend
      rw [length_append] at hfit
      exact ih (inv_extend h h0 hend) (hs.extend h h0 hend) (by omega)
  | grow hfull hnew hrest ih =>
      rw [← room_appendChunk h hnew hfull] at hfit
      exact ih (inv_appendChunk h hnew) (hs.appendChunk h hfull hnew) hfit

theorem append_chunkcnt (h : Inv b) (hne : src ≠ []) (hfit : src.length ≤ b.room) :
    (b.append malloc src).1.chunkcnt ≠ 0 := by
  have hpos := length_pos_iff.mpr hne
  obtain ⟨-, hinv, hcont⟩ := (appends malloc b src h).spec h (.inl hfit)
  rw [append, if_neg (Nat.ne_of_gt hpos)]
  refine hinv.chunkcnt_ne_zero (n := b.contents.length) ?_
  rw [hcont, Nat.min_eq_left hfit, take_length, length_append]
  omega

theorem append_stands (h : Inv b) (hs : Stands b pos) (hfit : src.length ≤ b.room ∨ b.room = 0) :
    Stands (b.append malloc src).1 pos := by
  unfold append
  split_ifs
  · exact hs
  · exact (appends malloc b src h).stands h hs hfit

/-! ## the other calls -/

/-- Taking bytes out puts the cursor back to the start. -/
theorem removeDiscard_stands (h : Inv b) (hs : Stands b pos) {sz : Nat} (hsz : sz ≠ 0)
    {out : List UInt8} (hrun : b.removeDiscard sz = some (b', out)) : Stands b' 0 := by
  obtain ⟨b₁, hrun₁, hinv, -⟩ := removeDiscard_spec sz h
  obtain rfl : b₁ = b' := by
    rw [hrun₁] at hrun
    exact congrArg Prod.fst (some.inj hrun)
  by_cases h0 : b.chunkcnt = 0
  · rw [removeDiscard, if_neg hsz, if_pos h0] at hrun
    obtain rfl : b = b₁ := congrArg Prod.fst (some.inj hrun)
    rwa [← hs.eq_zero h h0]
  · obtain ⟨hchkoff, hoffset⟩ := removeDiscard_rewinds hsz h0 hrun
    exact stands_of_rewound hinv hchkoff hoffset

theorem Moved.chunkcnt (hm : Moved b b') : b'.chunkcnt = b.chunkcnt := by
  obtain ⟨chkoff, offset, rfl⟩ := hm
  rfl

theorem Moved.stands (hm : Moved b b') (h0 : b.chunkcnt ≠ 0) (hc : Cursor b' pos)
    (hle : pos ≤ b.contents.length) : Stands b' pos :=
  ⟨fun h0' => absurd (hm.chunkcnt.symm.trans h0') h0, fun _ => hc, by rwa [hm.contents]⟩

/-- `read`, with the variables of `read_data` as they are: on a buffer without chunks its loop is
not entered, and the cursor becomes what `chkoff` and `off` hold uninitialised. -/
def readInto (stack : FifobufferImpl → Option Nat × Nat) (b : FifobufferImpl) (sz : Nat) :
    Option (FifobufferImpl × List UInt8) :=
  if sz ≠ 0 ∧ b.chunkcnt = 0 then
    some ({ b with chkoff := (stack b).1, offset := (stack b).2 }, [])
  else b.read sz

/-- **Reading** from where the cursor stands. -/
theorem readInto_spec (stack : FifobufferImpl → Option Nat × Nat) (h : Inv b)
    (hs : Stands b pos) {sz : Nat} (hsz : sz = 0 ∨ b.chunkcnt ≠ 0) :
    ∃ b', b.readInto stack sz = some (b', (b.contents.drop pos).take sz) ∧ Moved b b' ∧
      Stands b' (pos + min sz (b.contents.length - pos)) := by
  have hrun : b.readInto stack sz = b.read sz := if_neg fun hno => hsz.elim hno.1 fun h0 => h0 hno.2
  have hle := hs.le
  rw [hrun]
  by_cases h0 : b.chunkcnt = 0
  · have hzero : sz = 0 := hsz.resolve_right (not_not.mpr h0)
    refine ⟨b, ?_, .refl b, ?_⟩
    · rw [read, if_pos hzero, hzero]
      rfl
    · rwa [hzero, Nat.zero_min]
  · obtain ⟨b', hread, hm, hc⟩ := read_spec h (hs.cursor h0) sz
    refine ⟨b', hread, hm, hm.stands h0 (hc.of_drop_eq ?_) (by omega)⟩
    rw [hm.contents]
    by_cases hlt : sz ≤ b.contents.length - pos
    · rw [Nat.min_eq_left hlt]
    · rw [drop_of_length_le (by omega), drop_of_length_le (by omega)]

/-- **Seeking** from the start, to a position in the queue. -/
theorem seek_stands (h : Inv b) {target : Nat} (hlt : target < b.contents.length) :
    ∃ b', b.seek target = some (b', 0) ∧ Moved b b' ∧ Stands b' target := by
  obtain ⟨b', hseek, hm, hc⟩ := seek_spec h hlt
  exact ⟨b', hseek, hm, hm.stands (h.chunkcnt_ne_zero hlt) hc (Nat.le_of_lt hlt)⟩

/-- Seeking from the cursor, to a position in the queue. -/
theorem seekCur_stands (h : Inv b) (hs : Stands b pos) {delta : Nat} (hdelta : delta ≠ 0)
    (hlt : pos + delta < b.contents.length) :
    ∃ b', b.seekCur delta = some (b', 0) ∧ Moved b b' ∧ Stands b' (pos + delta) := by
  have h0 := h.chunkcnt_ne_zero hlt
  obtain ⟨b', hseek, hm, hc⟩ := seekCur_spec h (hs.cursor h0) hdelta hlt
  exact ⟨b', hseek, hm, hm.stands h0 hc (Nat.le_of_lt hlt)⟩

/-- Seeking from the cursor, behind the end. -/
theorem seekCur_refused (h : Inv b) (hs : Stands b pos) {delta : Nat} (hdelta : delta ≠ 0)
    (hle : b.contents.length ≤ pos + delta) : b.seekCur delta = some (b, -1) := by
  by_cases h0 : b.chunkcnt = 0
  · rw [seekCur, if_neg hdelta, h.chunklist_eq_nil h0, drop_nil]
    rfl
  · exact seekCur_of_le h (hs.cursor h0) hdelta hle

end FifobufferImpl

/-! ## runs -/

open FifobufferImpl

/-- The calls of the interface. -/
inductive CursorCall
  | queue (c : Call)
  | seekSet (pos : Nat)
  | seekCur (delta : Nat)
  | read (sz : Nat)
  | peekdata (pos sz : Nat)

/-- What a call gives back: a return value of `seek`, or the bytes that are copied. -/
inductive CursorReply
  | queue (r : Reply)
  | sought (ret : Int)
  | bytes (bs : List UInt8)

/-- One call. -/
def cursorStep (malloc : FifobufferImpl → Chunk) (stack : FifobufferImpl → Option Nat × Nat)
    (b : FifobufferImpl) : CursorCall → Option (FifobufferImpl × CursorReply)
  | .queue c => (step malloc b c).map fun p => (p.1, .queue p.2)
  | .seekSet pos => (b.seek pos).map fun p => (p.1, .sought p.2)
  | .seekCur delta => (b.seekCur delta).map fun p => (p.1, .sought p.2)
  | .read sz => (b.readInto stack sz).map fun p => (p.1, .bytes p.2)
  | .peekdata pos sz => (b.peekdata pos sz).map fun bs => (b, .bytes bs)

/-- A queue of bytes, and a position in it. -/
structure Reader where
  queue : List UInt8
  pos : Nat

/-- The position that a `seek` is for. -/
def CursorCall.target (pos : Nat) : CursorCall → Option Nat
  | .seekSet p => some p
  | .seekCur delta => some (pos + delta)
  | _ => none

/-- The queue with its position: an append leaves the position, the other calls that change the
queue put it back to the start; a seek moves it to a position in the queue or fails, and a read
moves it over the bytes that it gives. -/
inductive ReaderStep : Reader → CursorCall → CursorReply → Reader → Prop
  | append {q q' src r} (pos) : QueueStep q (.append src) r q' →
      ReaderStep ⟨q, pos⟩ (.queue (.append src)) (.queue r) ⟨q', pos⟩
  | taken {q q' c r} (pos) : (∀ src, c ≠ .append src) → QueueStep q c r q' →
      ReaderStep ⟨q, pos⟩ (.queue c) (.queue r) ⟨q', 0⟩
  | sought {q pos c p} : c.target pos = some p → p < q.length →
      ReaderStep ⟨q, pos⟩ c (.sought 0) ⟨q, p⟩
  | refused {q pos c p ret} : c.target pos = some p → q.length ≤ p → ret < 0 →
      ReaderStep ⟨q, pos⟩ c (.sought ret) ⟨q, pos⟩
  | read (q pos sz) : ReaderStep ⟨q, pos⟩ (.read sz) (.bytes ((q.drop pos).take sz))
      ⟨q, pos + min sz (q.length - pos)⟩
  | peekdata (q pos p sz) :
      ReaderStep ⟨q, pos⟩ (.peekdata p sz) (.bytes ((q.drop p).take sz)) ⟨q, pos⟩

/-- What a call that returns at once for its size 0 gives back. -/
def CursorCall.idle : CursorCall → Option CursorReply
  | .queue (.remove 0) => some (.queue (.delivered []))
  | .queue (.discard 0) => some (.queue (.discarded 0))
  | .seekCur 0 => some (.sought 0)
  | _ => none

/-- The same with the calls that return at once: they succeed and change nothing. -/
inductive CursorStep : Reader → CursorCall → CursorReply → Reader → Prop
  | idle {s c r} : c.idle = some r → CursorStep s c r s
  | moves {s c r s'} : c.idle = none → ReaderStep s c r s' → CursorStep s c r s'

/-- The append is not cut short by the chunk limit, and nothing is read from a buffer without
chunks. -/
def Usable (b : FifobufferImpl) : CursorCall → Prop
  | .queue c => NotCutShort b c
  | .read sz => sz = 0 ∨ b.chunkcnt ≠ 0
  | _ => True

/-- The buffer holds the bytes of the queue, and its cursor stands at the position. -/
def StandsFor (b : FifobufferImpl) (s : Reader) : Prop := Represents b s.queue ∧ Stands b s.pos

theorem FifobufferImpl.Moved.standsFor {b b' : FifobufferImpl} {pos : Nat} (hm : Moved b b')
    (h : Inv b) (hs : Stands b' pos) : StandsFor b' ⟨b.contents, pos⟩ :=
  ⟨⟨hm.inv h, hm.contents⟩, hs⟩

section

variable (malloc : FifobufferImpl → Chunk) (stack : FifobufferImpl → Option Nat × Nat)
  {b : FifobufferImpl} {pos : Nat}

/-- A call that takes bytes out, or returns at once. -/
theorem removeDiscard_simulates (h : Inv b) (hs : Stands b pos) (sz : Nat) :
    ∃ b', b.removeDiscard sz = some (b', b.contents.take sz) ∧
      StandsFor b' ⟨b.contents.drop sz, if sz = 0 then pos else 0⟩ := by
  obtain ⟨b', hrun, hinv, hcont⟩ := removeDiscard_spec sz h
  refine ⟨b', hrun, ⟨hinv, hcont⟩, ?_⟩
  split_ifs with hsz
  · rw [removeDiscard, if_pos hsz] at hrun
    obtain rfl : b = b' := congrArg Prod.fst (some.inj hrun)
    exact hs
  · exact removeDiscard_stands h hs hsz hrun

/-- **Every call** does to buffer and cursor what it does to the queue and its position. -/
theorem cursorStep_simulates (b : FifobufferImpl) (s : Reader) (c : CursorCall)
    (hR : StandsFor b s) (hc : Usable b c) :
    ∃ b' r s', cursorStep malloc stack b c = some (b', r) ∧ CursorStep s c r s' ∧
      StandsFor b' s' := by
  obtain ⟨q, pos⟩ := s
  obtain ⟨⟨h, rfl⟩, hs⟩ := hR
  cases c with
  | queue c =>
      cases c with
      | append src =>
          obtain ⟨b', r, q', hstep, hq, hrep⟩ := step_simulates malloc b b.contents (.append src)
            ⟨h, rfl⟩ hc
          have hstands := append_stands malloc h hs hc
          cases hstep
          exact ⟨_, _, ⟨q', pos⟩, rfl, .moves rfl (.append pos hq), hrep, hstands⟩
      | remove sz =>
          obtain ⟨b', hrun, hfor⟩ := removeDiscard_simulates h hs sz
          refine ⟨b', .queue (.delivered (b.contents.take sz)), _, ?_, ?_, hfor⟩
          · simp only [cursorStep, step, remove, hrun, map_some]
          · cases sz with
            | zero => exact .idle rfl
            | succ sz => exact .moves rfl (.taken pos (fun _ hno => by cases hno) (.remove _ _))
      | discard sz =>
          obtain ⟨b', hrun, hfor⟩ := removeDiscard_simulates h hs sz
          refine ⟨b', .queue (.discarded (min sz b.contents.length)), _, ?_, ?_, hfor⟩
          · simp only [cursorStep, step, FifobufferImpl.discard, hrun, map_some, length_take]
          · cases sz with
            | zero =>
                rw [Nat.zero_min]
                exact .idle rfl
            | succ sz => exact .moves rfl (.taken pos (fun _ hno => by cases hno) (.discard _ _))
      | drain =>
          exact ⟨b.drain, _, ⟨[], 0⟩, rfl,
            .moves rfl (.taken pos (fun _ hno => by cases hno) (.drain _)), ⟨inv_drain b, rfl⟩,
            stands_of_rewound (inv_drain b) rfl rfl⟩
  | seekSet p =>
      by_cases hlt : p < b.contents.length
      · obtain ⟨b', hseek, hm, hstands⟩ := seek_stands h hlt
        refine ⟨b', .sought 0, ⟨b.contents, p⟩, ?_, .moves rfl (.sought rfl hlt),
          hm.standsFor h hstands⟩
        rw [cursorStep, hseek, map_some]
      · have hle := Nat.le_of_not_lt hlt
        refine ⟨b, .sought (-1), ⟨b.contents, pos⟩, ?_, .moves rfl (.refused rfl hle (by decide)),
          ⟨h, rfl⟩, hs⟩
        rw [cursorStep, seek_of_le h hle, map_some]
  | seekCur delta =>
      cases delta with
      | zero => exact ⟨b, .sought 0, ⟨b.contents, pos⟩, rfl, .idle rfl, ⟨h, rfl⟩, hs⟩
      | succ delta =>
          by_cases hlt : pos + (delta + 1) < b.contents.length
          · obtain ⟨b', hseek, hm, hstands⟩ := seekCur_stands h hs (Nat.succ_ne_zero delta) hlt
            refine ⟨b', .sought 0, ⟨b.contents, _⟩, ?_, .moves rfl (.sought rfl hlt),
              hm.standsFor h hstands⟩
            rw [cursorStep, hseek, map_some]
          · have hle := Nat.le_of_not_lt hlt
            refine ⟨b, .sought (-1), ⟨b.contents, pos⟩, ?_,
              .moves rfl (.refused rfl hle (by decide)), ⟨h, rfl⟩, hs⟩
            rw [cursorStep, seekCur_refused h hs (Nat.succ_ne_zero delta) hle, map_some]
  | read sz =>
      obtain ⟨b', hread, hm, hstands⟩ := readInto_spec stack h hs hc
      refine ⟨b', _, ⟨b.contents, _⟩, ?_, .moves rfl (.read _ _ _), hm.standsFor h hstands⟩
      rw [cursorStep, hread, map_some]
  | peekdata p sz =>
      refine ⟨b, _, ⟨b.contents, pos⟩, ?_, .moves rfl (.peekdata _ _ _ _), ⟨h, rfl⟩, hs⟩
      rw [cursorStep, peekdata_spec h, map_some]

end

/-- **The cursor refines a position in the queue**: along every sequence of calls, no assertion
fails, the replies are those of the queue with its position, and in the state reached the cursor
stands at that position. -/
theorem cursor_refines (malloc : FifobufferImpl → Chunk)
    (stack : FifobufferImpl → Option Nat × Nat) (cs : List CursorCall)
    (h : Guarded (cursorStep malloc stack) Usable FifobufferImpl.new cs) :
    ∃ b rs s, run (cursorStep malloc stack) FifobufferImpl.new cs = some (b, rs) ∧
      Runs CursorStep ⟨[], 0⟩ cs rs s ∧ b.contents = s.queue ∧ Stands b s.pos := by
  obtain ⟨b, rs, s, hrun, hruns, ⟨-, hcont⟩, hs⟩ := run_simulates
    (cursorStep_simulates malloc stack) cs FifobufferImpl.new ⟨[], 0⟩
    ⟨⟨inv_new, rfl⟩, stands_of_rewound inv_new rfl rfl⟩ h
  exact ⟨b, rs, s, hrun, hruns, hcont, hs⟩

/-- 5000 bytes, in two chunks: 4090 are read over the border of the first one, a seek leads behind the
end, and the first 4085 bytes are taken out. -/
theorem cursor_refines_border :
    ∃ b rs s, run (cursorStep (fun _ => zeroChunk) fun _ => (none, 7)) FifobufferImpl.new
        [.queue (.append (replicate 5000 1)), .read 4090, .seekCur 910, .queue (.remove 4085)] =
          some (b, rs) ∧
      Runs CursorStep ⟨[], 0⟩ [.queue (.append (replicate 5000 1)), .read 4090, .seekCur 910,
        .queue (.remove 4085)] rs s ∧ b.contents = s.queue ∧ Stands b s.pos := by
  have hfit : (replicate 5000 (1 : UInt8)).length ≤ FifobufferImpl.new.room := by
    rw [length_replicate]
    decide
  refine cursor_refines _ _ _ ⟨.inl hfit, fun b r hstep => ⟨.inr ?_, fun _ _ _ =>
    ⟨trivial, fun _ _ _ => ⟨trivial, fun _ _ _ => trivial⟩⟩⟩⟩
  simp only [cursorStep, step, map_some, some.injEq, Prod.mk.injEq] at hstep
  rw [← hstep.1]
  exact append_chunkcnt _ inv_new (by rw [ne_eq, replicate_eq_nil_iff]; decide) hfit

/-- On the empty queue there is no position, but a seek by 0 succeeds. -/
theorem seekCur_zero_succeeds :
    Guarded (cursorStep (fun _ => zeroChunk) fun _ => (none, 7)) Usable
        FifobufferImpl.new [.seekCur 0] ∧
      ∃ b rs, run (cursorStep (fun _ => zeroChunk) fun _ => (none, 7)) FifobufferImpl.new
          [.seekCur 0] = some (b, rs) ∧
        ¬ ∃ s, Runs ReaderStep ⟨[], 0⟩ [.seekCur 0] rs s := by
  refine ⟨⟨trivial, fun _ _ _ => trivial⟩, FifobufferImpl.new, [.sought 0], rfl, ?_⟩
  rintro ⟨s, hruns⟩
  cases hruns with
  | cons hstep _ =>
      cases hstep with
      | sought htarget hlt =>
          cases htarget
          exact absurd hlt (by decide)
      | refused _ _ hret => exact absurd hret (by decide)

end V2I.FifoBuffer
