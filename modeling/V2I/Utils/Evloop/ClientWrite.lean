import V2I.Utils.Evloop.Writing

/-!
# V2I.Utils.Evloop.ClientWrite

`client_write`, by which the tasklets write to a client: what the kernel does not take directly
goes into the FIFO, which the event loop empties in the meantime.
-/

namespace V2I.FifoBuffer.FifobufferImpl

/-! ## the length of the queue behind an append -/

variable {b : FifobufferImpl} {src : List UInt8}

/-- **Appending**, whatever fits: never more bytes get into the queue than are reported, and fewer
when the chunk limit cuts the append short. -/
theorem Appends.length {r : FifobufferImpl × Nat} (ha : Appends b src r) (h : Inv b) :
    Inv r.1 ∧ r.2 ≤ src.length ∧ r.1.contents.length ≤ b.contents.length + r.2 ∧
      (0 < b.room → b.room < src.length → r.1.contents.length < b.contents.length + r.2) := by
  induction ha with
  | done => exact ⟨h, Nat.zero_le _, Nat.le_refl _, fun _ hlt => absurd hlt (Nat.not_lt_zero _)⟩
  | full hmax hend =>
      refine ⟨h, Nat.zero_le _, Nat.le_refl _, fun hpos _ => ?_⟩
      rw [room_of_eq_max hmax, hend, Nat.sub_self] at hpos
      exact absurd hpos (Nat.lt_irrefl 0)
  | @cut src b hmax hlt hcut =>
      -- the last chunk is full, but `_end` stands at its header
      have h0 : b.chunkcnt ≠ 0 := by rw [hmax]; decide
      have hext : Inv (b.extend (src.take (chunkSize - b.endAt))) := inv_extend h h0 (by
        rw [List.length_take]
        omega)
      let filled : FifobufferImpl :=
        { b.writeLast b.endAt (src.take (chunkSize - b.endAt)) with endAt := headerSize }
      have hfilled : filled.chunkcnt = maxChunkcnt := hmax
      have hinv : Inv filled := ⟨hext.count, hext.limit, hext.start_ge, hext.start_lt,
        fun _ => Nat.le_refl _, fun _ => (by decide : headerSize ≤ chunkSize),
        fun hone => absurd (hfilled.symm.trans hone) (by decide)⟩
      have hlen : filled.contents.length < b.contents.length + (chunkSize - b.endAt) := by
        have hsize : filled.getsize = chunkSize * maxChunkcnt - b.startAt -
            (chunkSize - headerSize) - headerSize * (maxChunkcnt - 1) := by
          rw [getsize, if_neg (by rw [hfilled]; decide), hfilled]
          rfl
        have hstart := h.start_lt h0
        rw [← getsize_eq hinv, ← getsize_eq h, hsize, getsize, if_neg h0, hmax]
        simp only [chunkSize, headerSize, maxChunkcnt] at hstart hlt ⊢
        omega
      exact ⟨hinv, Nat.le_of_lt hcut, Nat.le_of_lt hlen, fun _ _ => hlen⟩
  | @write r b src rest h0 hend hmore hrest ih =>
      obtain ⟨hle, hroom⟩ := room_extend h0 hend
      obtain ⟨hinv, hn, hlen, hshort⟩ := ih (inv_extend h h0 hend)
      rw [contents_extend h h0 hend, List.length_append] at hlen hshort
      simp only [List.length_append]
      refine ⟨hinv, by omega, by omega, fun _ hover => ?_⟩
      have hmore := lt_room h h0 (hmore fun hnil => by rw [hnil, List.length_nil] at hover; omega)
      have := hshort (by omega) (by omega)
      omega
  | grow hfull hnew hrest ih =>
      rw [← room_appendChunk h hnew hfull, ← contents_appendChunk h hnew hfull]
      exact ih (inv_appendChunk h hnew)

theorem append_length (malloc : FifobufferImpl → Chunk) (h : Inv b) :
    Inv (b.append malloc src).1 ∧ (b.append malloc src).2 ≤ src.length ∧
      (b.append malloc src).1.contents.length ≤
        b.contents.length + (b.append malloc src).2 ∧
      (0 < b.room → b.room < src.length → (b.append malloc src).1.contents.length <
        b.contents.length + (b.append malloc src).2) := by
  unfold append
  split_ifs with hnil
  · exact ⟨h, Nat.zero_le _, Nat.le_refl _, fun _ _ => by omega⟩
  · exact (appends malloc b src h).length h

end V2I.FifoBuffer.FifobufferImpl

namespace V2I.Evloop.ClientWrite

open FifoBuffer FifoBuffer.FifobufferImpl
open Writing (SysWrite nonblkWrite nonblkWrite_le)

/-! ## `client_write` -/

/-- A wait without the mutex, for the FIFO that another thread has locked: whether the time is over
at its end, and the FIFO when the mutex is locked again. -/
structure Wait where
  late : Bool
  fifobuf : FifobufferImpl

/-- A wait inside the FIFO: how many bytes of it the event loop sends, and whether the time is over
when the mutex is locked again. -/
structure Pause where
  sent : Nat
  late : Bool

/-- What a call meets: what the calls of `write` come to, the waits for the FIFO, and the waits for
room in it. -/
structure Environment where
  writes : List SysWrite
  waits : List Wait
  pauses : List Pause

/-- How `client_write` returns: its value, whether a timeout led to it, the FIFO as it was found
when it was entered and as it is left, and what the event loop has sent of it between. -/
structure Written where
  ret : Nat
  late : Bool
  found : FifobufferImpl
  sent : List UInt8
  fifobuf : FifobufferImpl

/-- The loop that locks the FIFO; `none` is the timeout. -/
def enterLoop (b : FifobufferImpl) : List Wait → Option FifobufferImpl
  | [] => some b
  | w :: waits => if w.late then none else enterLoop w.fifobuf waits

/-- The loop that writes to the FIFO, from the test of its condition on. `none` is a call that still
waits. -/
def bufferLoop (malloc : FifobufferImpl → Chunk) (b : FifobufferImpl) (s : List UInt8)
    (nleft nwri fnwri : Nat) (pauses : List Pause) : Option Written :=
  if fnwri < nleft then
    let out := b.append malloc (s.take nleft)
    let fnwri := out.2
    let nwri := nwri + fnwri
    if fnwri = nleft then some ⟨nwri, false, b, [], out.1⟩
    else match pauses with
      | [] => none
      | p :: pauses =>
          match out.1.remove p.sent with
          | none => none
          | some (b', sent) =>
              if p.late then some ⟨nwri, true, b, sent, b'⟩
              else
                (bufferLoop malloc b' (s.drop fnwri) (nleft - fnwri) nwri fnwri pauses).map
                  fun w => { w with found := b, sent := sent ++ w.sent }
  else some ⟨nwri, false, b, [], b⟩

/-- What the kernel takes of `src` directly: something only when the FIFO is empty. -/
def directly (b : FifobufferImpl) (src : List UInt8) (writes : List SysWrite) : Nat :=
  if b.empty then (nonblkWrite src writes).1 else 0

/-- `client_write(fd, src, n, mut, fifobuf, timeout)`, `src` being the `n` bytes there. -/
def clientWrite (malloc : FifobufferImpl → Chunk) (b : FifobufferImpl) (src : List UInt8)
    (env : Environment) : Option Written :=
  let n := src.length
  if n = 0 then some ⟨0, false, b, [], b⟩
  else
    let nwri := directly b src env.writes
    if b.empty ∧ nwri = n then some ⟨n, false, b, [], b⟩
    else
      let nleft := n - nwri
      match enterLoop b env.waits with
      -- the timeout returns `n`
      | none => some ⟨n, true, b, [], b⟩
      | some b => bufferLoop malloc b (src.drop nwri) nleft nwri 0 env.pauses

/-! ## what is handed over -/

/-- A prefix of `src` has been handed over, as long as the return value says: what the kernel took
directly, and behind it what went into the FIFO, each byte once and in order. It is not all of `src`
only after the timeout. -/
structure HandsOver (b : FifobufferImpl) (src : List UInt8) (env : Environment) (w : Written) :
    Prop where
  le : w.ret ≤ src.length
  front : ∃ appended, src.take (directly b src env.writes) ++ appended = src.take w.ret ∧
    w.sent ++ w.fifobuf.contents = w.found.contents ++ appended
  timeout : w.ret < src.length → w.late = true

/-- At every attempt, the FIFO has room for all that is left, or it has no room. -/
def Fits (rest : List UInt8) : List Pause → FifobufferImpl → Prop
  | [], b => rest.length ≤ b.room ∨ b.room = 0
  | p :: pauses, b => rest.length ≤ b.room ∨ b.room = 0 ∧
      (p.late = true ∨ ∀ b' sent, b.remove p.sent = some (b', sent) → Fits rest pauses b')

/-- The kernel takes all of `src` directly, or the FIFO is entered in time and takes all of the rest
or nothing at every attempt. -/
def AllOrNothing (b : FifobufferImpl) (src : List UInt8) (env : Environment) : Prop :=
  directly b src env.writes = src.length ∨
    ∃ b', enterLoop b env.waits = some b' ∧
      Fits (src.drop (directly b src env.writes)) env.pauses b'

variable {malloc : FifobufferImpl → Chunk} {b : FifobufferImpl} {rest : List UInt8}
  {pauses : List Pause} {w : Written}

theorem directly_le (b : FifobufferImpl) (src : List UInt8) (writes : List SysWrite) :
    directly b src writes ≤ src.length := by
  unfold directly
  split_ifs
  · exact nonblkWrite_le src writes
  · exact Nat.zero_le _

theorem enterLoop_inv {b₁ : FifobufferImpl} {waits : List Wait} (hb : Inv b)
    (hw : ∀ w ∈ waits, Inv w.fifobuf) (h : enterLoop b waits = some b₁) : Inv b₁ := by
  induction waits generalizing b with
  | nil =>
      cases h
      exact hb
  | cons w waits ih =>
      rw [enterLoop] at h
      split_ifs at h
      exact ih (hw w List.mem_cons_self) (fun w' hw' => hw w' (List.mem_cons_of_mem _ hw')) h

variable {nwri : Nat}

/-- What one attempt leads to: all is taken; or the time is over behind a wait; or the loop goes
on with what is left. -/
theorem bufferLoop_cases {fnwri : Nat} (h : Inv b) (hfnwri : fnwri < rest.length)
    (hrun : bufferLoop malloc b rest rest.length nwri fnwri pauses = some w) :
    ((b.append malloc rest).2 = rest.length ∧
      w = ⟨nwri + rest.length, false, b, [], (b.append malloc rest).1⟩) ∨
    ∃ p pauses' b', pauses = p :: pauses' ∧ (b.append malloc rest).2 ≠ rest.length ∧
      (b.append malloc rest).1.remove p.sent =
        some (b', (b.append malloc rest).1.contents.take p.sent) ∧
      Inv b' ∧ b'.contents = (b.append malloc rest).1.contents.drop p.sent ∧
      (p.late = true ∧ w = ⟨nwri + (b.append malloc rest).2, true, b,
          (b.append malloc rest).1.contents.take p.sent, b'⟩ ∨
        p.late = false ∧ ∃ w', bufferLoop malloc b' (rest.drop (b.append malloc rest).2)
            (rest.drop (b.append malloc rest).2).length (nwri + (b.append malloc rest).2)
            (b.append malloc rest).2 pauses' = some w' ∧
          w = { w' with found := b,
                        sent := (b.append malloc rest).1.contents.take p.sent ++ w'.sent }) := by
  obtain ⟨hinv, -, -, -⟩ := @append_length _ rest malloc h
  unfold bufferLoop at hrun
  rw [if_pos hfnwri, List.take_length] at hrun
  simp only at hrun
  split_ifs at hrun with hall
  · cases hrun
    exact .inl ⟨hall, by rw [hall]⟩
  · cases pauses with
    | nil => cases hrun
    | cons p pauses =>
        obtain ⟨b', hremove, hinv', hcont⟩ := removeDiscard_spec p.sent hinv
        have hremove' : (b.append malloc rest).1.remove p.sent =
          some (b', (b.append malloc rest).1.contents.take p.sent) := hremove
        refine .inr ⟨p, pauses, b', rfl, hall, hremove', hinv', hcont, ?_⟩
        simp only [hremove'] at hrun
        cases hlate : p.late with
        | true =>
            rw [hlate, if_pos rfl] at hrun
            cases hrun
            exact .inl ⟨rfl, rfl⟩
        | false =>
            rw [hlate, if_neg (by decide), ← List.length_drop] at hrun
            obtain ⟨w', hrun', rfl⟩ := Option.map_eq_some_iff.mp hrun
            exact .inr ⟨rfl, w', hrun', rfl⟩

/-- Never more bytes have got into the FIFO than are reported. -/
theorem bufferLoop_le {fnwri : Nat} (h : Inv b)
    (hrun : bufferLoop malloc b rest rest.length nwri fnwri pauses = some w) :
    nwri ≤ w.ret ∧ w.found = b ∧
      w.sent.length + w.fifobuf.contents.length + nwri ≤ b.contents.length + w.ret := by
  induction pauses generalizing b rest nwri fnwri w with
  | nil =>
      by_cases hfnwri : fnwri < rest.length
      · obtain ⟨-, hn, hle, -⟩ := @append_length _ rest malloc h
        obtain ⟨hall, rfl⟩ | ⟨p, pauses', b', hp, -⟩ := bufferLoop_cases h hfnwri hrun
        · refine ⟨Nat.le_add_right _ _, rfl, ?_⟩
          simp only [List.length_nil]
          omega
        · cases hp
      · rw [bufferLoop, if_neg hfnwri] at hrun
        cases hrun
        exact ⟨Nat.le_refl _, rfl, by simp only [List.length_nil]; omega⟩
  | cons p pauses ih =>
      by_cases hfnwri : fnwri < rest.length
      · obtain ⟨-, hn, hle, -⟩ := @append_length _ rest malloc h
        obtain ⟨hall, rfl⟩ | ⟨p', pauses', b', hp, -, -, hinv, hcont, hmore⟩ :=
          bufferLoop_cases h hfnwri hrun
        · refine ⟨Nat.le_add_right _ _, rfl, ?_⟩
          simp only [List.length_nil]
          omega
        · cases hp
          have hlen := congrArg List.length
            (List.take_append_drop p.sent (b.append malloc rest).1.contents)
          rw [List.length_append, ← hcont] at hlen
          obtain ⟨-, rfl⟩ | ⟨-, w', hrun', rfl⟩ := hmore
          · refine ⟨Nat.le_add_right _ _, rfl, ?_⟩
            simp only
            omega
          · obtain ⟨hret, -, hle'⟩ := ih hinv hrun'
            refine ⟨by simp only; omega, rfl, ?_⟩
            simp only [List.length_append]
            omega
      · rw [bufferLoop, if_neg hfnwri] at hrun
        cases hrun
        exact ⟨Nat.le_refl _, rfl, by simp only [List.length_nil]; omega⟩

/-- **Every append takes all or nothing**: all that is left gets into the FIFO, or nothing and the
time is over. -/
theorem bufferLoop_all (h : Inv b) (hne : 0 < rest.length) (hfits : Fits rest pauses b)
    (hrun : bufferLoop malloc b rest rest.length nwri 0 pauses = some w) :
    (w.ret = nwri + rest.length ∧ w.sent ++ w.fifobuf.contents = w.found.contents ++ rest) ∨
      (w.ret = nwri ∧ w.late = true ∧ w.sent ++ w.fifobuf.contents = w.found.contents) := by
  induction pauses generalizing b w with
  | nil =>
      obtain ⟨hall, rfl⟩ | ⟨p, pauses', b', hp, -⟩ := bufferLoop_cases h hne hrun
      · left
        obtain hfit | hfull := hfits
        · exact ⟨rfl, (append_all malloc h hfit).2.2⟩
        · rw [append_none malloc h hfull] at hall
          exact absurd hall (by simp only; omega)
      · cases hp
  | cons p pauses ih =>
      obtain hfit | ⟨hfull, hnext⟩ := hfits
      · obtain ⟨hall, -, hcont⟩ := append_all malloc h hfit
        obtain ⟨-, rfl⟩ | ⟨_, _, _, -, hno, -⟩ := bufferLoop_cases h hne hrun
        · exact .inl ⟨rfl, hcont⟩
        · exact absurd hall hno
      · have hsame := @append_none _ rest malloc h hfull
        obtain ⟨hall, -⟩ | ⟨p', pauses', b', hp, -, hremove, hinv, hcont, hmore⟩ :=
          bufferLoop_cases h hne hrun
        · rw [hsame] at hall
          exact absurd hall (by simp only; omega)
        · cases hp
          rw [hsame] at hremove hcont hmore
          simp only [Nat.add_zero, List.drop_zero] at hremove hcont hmore
          obtain ⟨-, rfl⟩ | ⟨hlate, w', hrun', rfl⟩ := hmore
          · refine .inr ⟨rfl, rfl, ?_⟩
            simp only
            rw [hcont, List.take_append_drop]
          · obtain hlate' | hnext := hnext
            · exact absurd (hlate.symm.trans hlate') (by decide)
            have hfront : ∀ x : List UInt8,
                w'.sent ++ w'.fifobuf.contents = w'.found.contents ++ x →
                  b.contents.take p.sent ++ w'.sent ++ w'.fifobuf.contents = b.contents ++ x := by
              intro x hx
              rw [List.append_assoc, hx, (bufferLoop_le hinv hrun').2.1, hcont, ← List.append_assoc,
                List.take_append_drop]
            obtain ⟨hret, hbytes⟩ | ⟨hret, hlate', hbytes⟩ := ih hinv (hnext b' _ hremove) hrun'
            · exact .inl ⟨hret, hfront rest hbytes⟩
            · refine .inr ⟨hret, hlate', ?_⟩
              have hnone := hfront [] (by rw [hbytes, List.append_nil])
              rwa [List.append_nil] at hnone

/-- **An append is cut short**: fewer bytes have got into the FIFO than are reported. -/
theorem bufferLoop_lt (h : Inv b) (hne : 0 < rest.length) (hfits : ¬ Fits rest pauses b)
    (hrun : bufferLoop malloc b rest rest.length nwri 0 pauses = some w) :
    w.sent.length + w.fifobuf.contents.length + nwri < b.contents.length + w.ret := by
  obtain ⟨hinv, hn, -, hlt⟩ := @append_length _ rest malloc h
  induction pauses generalizing b w with
  | nil =>
      simp only [Fits, not_or] at hfits
      have hshort := hlt (by omega) (by omega)
      obtain ⟨hall, rfl⟩ | ⟨p, pauses', b', hp, -⟩ := bufferLoop_cases h hne hrun
      · simp only [List.length_nil]
        omega
      · cases hp
  | cons p pauses ih =>
      simp only [Fits, not_or] at hfits
      obtain ⟨hfit, hnext⟩ := hfits
      obtain ⟨hall, rfl⟩ | ⟨p', pauses', b', hp, -, hremove, hinv', hcont, hmore⟩ :=
        bufferLoop_cases h hne hrun
      · by_cases hfull : b.room = 0
        · rw [append_none malloc h hfull] at hall
          exact absurd hall (by simp only; omega)
        · have hshort := hlt (by omega) (by omega)
          simp only [List.length_nil]
          omega
      · cases hp
        have hlen := congrArg List.length
          (List.take_append_drop p.sent (b.append malloc rest).1.contents)
        rw [List.length_append, ← hcont] at hlen
        by_cases hfull : b.room = 0
        · -- nothing is taken, and the next attempt counts
          simp only [hfull, true_and, not_or, not_forall] at hnext
          obtain ⟨hlate, b₁, sent, hremove₁, hfits'⟩ := hnext
          have hsame := @append_none _ rest malloc h hfull
          rw [hsame] at hremove hmore hlen
          simp only [Nat.add_zero, List.drop_zero] at hremove hmore hlen
          cases hremove₁.symm.trans hremove
          obtain ⟨hlate', -⟩ | ⟨-, w', hrun', rfl⟩ := hmore
          · exact absurd hlate' hlate
          · obtain ⟨hinv₁, hn₁, -, hlt₁⟩ := @append_length _ rest malloc hinv'
            have hshort := ih hinv' hfits' hrun' hinv₁ hn₁ hlt₁
            simp only [List.length_append]
            omega
        · have hshort := hlt (by omega) (by omega)
          obtain ⟨-, rfl⟩ | ⟨-, w', hrun', rfl⟩ := hmore
          · simp only
            omega
          · obtain ⟨-, -, hle⟩ := bufferLoop_le hinv' hrun'
            simp only [List.length_append]
            omega

/-! ## when the return value is right -/

/-- **What is returned is what is handed over** exactly when the kernel takes all of `src` directly,
or the FIFO is entered in time and has, at every attempt, room for all that is left or no room. -/
theorem client_write_iff (malloc : FifobufferImpl → Chunk) {b : FifobufferImpl} {src : List UInt8}
    {env : Environment} (hb : Inv b) (hwaits : ∀ w ∈ env.waits, Inv w.fifobuf) {w : Written}
    (hrun : clientWrite malloc b src env = some w) :
    HandsOver b src env w ↔ AllOrNothing b src env := by
  have hle := directly_le b src env.writes
  unfold clientWrite at hrun
  simp only at hrun
  by_cases hn : src.length = 0
  · rw [if_pos hn] at hrun
    cases hrun
    rw [List.length_eq_zero_iff.mp hn] at hle ⊢
    refine ⟨fun _ => .inl (Nat.le_zero.mp hle),
      fun _ => ⟨Nat.le_refl _, ⟨[], ?_, ?_⟩, fun hlt => ?_⟩⟩
    · rw [List.take_nil, List.take_nil]
      rfl
    · rw [List.nil_append, List.append_nil]
    · exact absurd hlt (Nat.lt_irrefl _)
  rw [if_neg hn] at hrun
  by_cases hall : directly b src env.writes = src.length
  · have hempty : b.empty = true := by
      by_contra hno
      rw [directly, if_neg hno] at hall
      exact hn hall.symm
    rw [if_pos ⟨hempty, hall⟩] at hrun
    cases hrun
    refine ⟨fun _ => .inl hall, fun _ => ⟨Nat.le_refl _, ⟨[], ?_, ?_⟩, fun hlt => ?_⟩⟩
    · rw [hall, List.append_nil]
    · rw [List.nil_append, List.append_nil]
    · exact absurd hlt (Nat.lt_irrefl _)
  rw [if_neg fun hboth => hall hboth.2] at hrun
  cases henter : enterLoop b env.waits with
  | none =>
      -- `n` is returned, although nothing went into the FIFO
      rw [henter] at hrun
      cases hrun
      constructor
      · rintro ⟨-, ⟨appended, hfront, hbytes⟩, -⟩
        simp only [List.nil_append, List.self_eq_append_right] at hbytes
        have hlen := congrArg List.length hfront
        rw [hbytes, List.append_nil, List.take_length, List.length_take] at hlen
        omega
      · rintro (hall' | ⟨b', hsome, -⟩)
        · exact absurd hall' hall
        · cases henter.symm.trans hsome
  | some b₁ =>
      rw [henter] at hrun
      have hb₁ := enterLoop_inv hb hwaits henter
      have hlen : (src.drop (directly b src env.writes)).length =
        src.length - directly b src env.writes := List.length_drop
      have hne : 0 < (src.drop (directly b src env.writes)).length := by omega
      rw [← hlen] at hrun
      constructor
      · rintro ⟨hret, ⟨appended, hfront, hbytes⟩, -⟩
        refine .inr ⟨b₁, henter, ?_⟩
        by_contra hfits
        have hlt := bufferLoop_lt hb₁ hne hfits hrun
        obtain ⟨-, hfound, -⟩ := bufferLoop_le hb₁ hrun
        rw [hfound] at hbytes
        have hlen₁ := congrArg List.length hfront
        have hlen₂ := congrArg List.length hbytes
        simp only [List.length_append, List.length_take] at hlen₁ hlen₂
        omega
      · rintro (hall' | ⟨b', hsome, hfits⟩)
        · exact absurd hall' hall
        · cases henter.symm.trans hsome
          obtain ⟨hret, hbytes⟩ | ⟨hret, hlate, hbytes⟩ := bufferLoop_all hb₁ hne hfits hrun
          · refine ⟨by omega, ⟨_, ?_, hbytes⟩, fun hlt => by omega⟩
            rw [List.take_append_drop, List.take_of_length_le (by omega)]
          · refine ⟨by omega, ⟨[], ?_, ?_⟩, fun _ => hlate⟩
            · rw [hret, List.append_nil]
            · rw [List.append_nil, hbytes]

/-- The kernel takes nothing, the FIFO is locked at first, and then it takes all. -/
def lockedAtFirst : Environment := ⟨[.error], [⟨false, FifobufferImpl.new⟩], []⟩

theorem client_write_two : ∃ w,
    clientWrite (fun _ => zeroChunk) FifobufferImpl.new [1, 2] lockedAtFirst = some w ∧
      (HandsOver FifobufferImpl.new [1, 2] lockedAtFirst w ↔
        AllOrNothing FifobufferImpl.new [1, 2] lockedAtFirst) := by
  obtain ⟨hall, -⟩ := @append_all _ [1, 2] (fun _ => zeroChunk) inv_new (by decide)
  have hrun : clientWrite (fun _ => zeroChunk) FifobufferImpl.new [1, 2] lockedAtFirst =
      some ⟨2, false, FifobufferImpl.new, [],
        (FifobufferImpl.new.append (fun _ => zeroChunk) [1, 2]).1⟩ := by
    show bufferLoop (fun _ => zeroChunk) FifobufferImpl.new [1, 2] 2 0 0 [] = _
    unfold bufferLoop
    rw [if_pos (by decide), List.take_of_length_le (by decide)]
    simp only [hall, List.length_cons, List.length_nil, if_true]
  exact ⟨_, hrun, client_write_iff _ inv_new (by simp [lockedAtFirst, inv_new]) hrun⟩

/-- The FIFO is locked by another thread until the time is over. -/
theorem client_write_locked :
    ∃ w, clientWrite (fun _ => zeroChunk) FifobufferImpl.new [1]
        ⟨[.error], [⟨true, FifobufferImpl.new⟩], []⟩ = some w ∧
      ¬ HandsOver FifobufferImpl.new [1] ⟨[.error], [⟨true, FifobufferImpl.new⟩], []⟩ w := by
  refine ⟨⟨1, true, FifobufferImpl.new, [], FifobufferImpl.new⟩, rfl, ?_⟩
  rintro ⟨-, ⟨appended, hfront, hbytes⟩, -⟩
  simp only [List.nil_append, List.self_eq_append_right] at hbytes
  rw [hbytes] at hfront
  exact absurd hfront (by decide)

end V2I.Evloop.ClientWrite
