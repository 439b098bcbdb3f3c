import Mathlib.Data.List.Permutation
import V2I.Utils.FifoBuffer.Reading

/-!
# V2I.Utils.Evloop.Writing

The sending side of a client: any number of threads call `evloop_impl::write`, and the event loop
sends what they have buffered with `fifo_write`. A thread holds the mutex of the client from one
wait to the next, and over its waits only the `locked` flag of the FIFO.

The FIFO is the chunked buffer itself: an append that takes a part only may lose a chunk
(`Appends.overflow`), so the runs meant are those in which none does.
-/

namespace V2I.Evloop.Writing

open FifoBuffer FifobufferImpl List Function Machine

/-! ## the kernel -/

/-- What a call of `write` comes to: some bytes taken, an interrupt, or an error. -/
inductive SysWrite
  | took (n : Nat)
  | intr
  | error

/-- The loop of `nonblk_write`: the number of bytes taken, and the calls that are left. -/
def nonblkWrite (src : List UInt8) : List SysWrite → Nat × List SysWrite
  | [] => (0, [])
  | w :: writes =>
      if src.length = 0 then (0, w :: writes)
      else match w with
        | .intr => nonblkWrite src writes
        | .error => (0, writes)
        | .took n =>
            let nwritten := min n src.length
            if nwritten = 0 then (0, writes)
            else
              let rest := nonblkWrite (src.drop nwritten) writes
              (nwritten + rest.1, rest.2)

theorem nonblkWrite_le (src : List UInt8) (writes : List SysWrite) :
    (nonblkWrite src writes).1 ≤ src.length := by
  induction writes generalizing src with
  | nil => exact Nat.zero_le _
  | cons w writes ih =>
      by_cases h0 : src.length = 0
      · cases w <;> simp [nonblkWrite, h0]
      cases w with
      | intr =>
          rw [nonblkWrite, if_neg h0]
          exact ih src
      | error =>
          rw [nonblkWrite, if_neg h0]
          exact Nat.zero_le _
      | took n =>
          have hrest := ih (src.drop (min n src.length))
          rw [length_drop] at hrest
          rw [nonblkWrite, if_neg h0]
          simp only
          split_ifs <;> omega

/-- What a call takes is gone from what the calls come to. -/
theorem nonblkWrite_length (src : List UInt8) (writes : List SysWrite) :
    (nonblkWrite src writes).2.length ≤ writes.length ∧
      (0 < (nonblkWrite src writes).1 → (nonblkWrite src writes).2.length < writes.length) := by
  induction writes generalizing src with
  | nil => simp [nonblkWrite]
  | cons w writes ih =>
      by_cases h0 : src.length = 0
      · cases w <;> simp [nonblkWrite, h0]
      cases w with
      | intr =>
          have hle := (ih src).1
          rw [nonblkWrite, if_neg h0, length_cons]
          exact ⟨Nat.le_succ_of_le hle, fun _ => Nat.lt_succ_of_le hle⟩
      | error => simp [nonblkWrite, h0]
      | took n =>
          have hle := (ih (src.drop (min n src.length))).1
          rw [nonblkWrite, if_neg h0, length_cons]
          simp only
          split_ifs
          · simp
          · exact ⟨Nat.le_succ_of_le hle, fun _ => Nat.lt_succ_of_le hle⟩

/-! ## the client -/

/-- What the kernel has of the client, the FIFO behind it, and its flag. -/
structure Client where
  kernel : List UInt8
  fifobuf : FifobufferImpl
  locked : Bool

namespace Client

/-- The stream that has reached the kernel or is on its way there. -/
def stream (c : Client) : List UInt8 := c.kernel ++ c.fifobuf.contents

/-- `fifobuf->enter()` -/
def enter (c : Client) : Option Client :=
  if c.locked then none else some { c with locked := true }

/-- `fifobuf->exit()` -/
def exit (c : Client) : Client := { c with locked := false }

/-- The bytes that the kernel takes. -/
def send (c : Client) (src : List UInt8) : Client := { c with kernel := c.kernel ++ src }

end Client

/-! ## `fifo_write` -/

/-- The loop of `fifo_write`: what is sent, and `pos`. -/
def fifoWriteLoop (b : FifobufferImpl) (pos : Nat) (writes : List SysWrite) :
    Option (List UInt8 × Nat) :=
  match b.peekdata pos 256 with
  | none => none
  | some buf =>
      if _hnrd : buf.length = 0 then some ([], pos)
      else
        let out := nonblkWrite buf writes
        if _hall : out.1 < buf.length then some (buf.take out.1, pos + out.1)
        else
          match fifoWriteLoop b (pos + out.1) out.2 with
          | none => none
          | some (sent, pos) => some (buf.take out.1 ++ sent, pos)
termination_by writes.length
decreasing_by
  have hpos : 0 < (nonblkWrite buf writes).1 := by
    simp only [out] at _hall
    omega
  exact (nonblkWrite_length buf writes).2 hpos

/-- `fifo_write(fd, fifobuf, mut)`: what was sent is discarded at the end. -/
def fifoWrite (c : Client) (writes : List SysWrite) : Option Client :=
  match fifoWriteLoop c.fifobuf 0 writes with
  | none => none
  | some (sent, pos) =>
      (c.fifobuf.discard pos).map fun p => { c.send sent with fifobuf := p.1 }

/-! ## `evloop_impl::write` -/

/-- What a critical section of a writer meets: the calls of `write`, whether the time is over
when the mutex is locked again, and whether it is over when the FIFO did not take all. -/
structure Environment where
  writes : List SysWrite
  lateLock : Bool
  lateRoom : Bool

/-- What a writer waits for without the mutex, with the bytes from `s` on: to enter the FIFO,
or, inside, for room in it. -/
inductive Waiting
  | enter (left : List UInt8)
  | room (left : List UInt8)

/-- How a critical section ends: the writer waits, or `write` returns. -/
inductive Outcome
  | waits (w : Waiting)
  | returns (left : List UInt8)

variable (malloc : FifobufferImpl → Chunk)

/-- The loop that writes to the FIFO, up to a wait or to `fifobuf->exit()`. -/
def bufferRest (c : Client) (left : List UInt8) (env : Environment) : Client × Outcome :=
  let out := c.fifobuf.append malloc left
  let c := { c with fifobuf := out.1 }
  let left := left.drop out.2
  if left.length = 0 then (c.exit, .returns left)
  else if env.lateRoom then (c.exit, .returns left)
  else (c, .waits (.room left))

/-- The loop that locks the FIFO, from `fifobuf->enter()` on. -/
def tryEnter (c : Client) (left : List UInt8) (env : Environment) : Client × Outcome :=
  match c.enter with
  | some c => bufferRest malloc c left env
  | none => (c, .waits (.enter left))

/-- A round of `while (nleft > 0)`. -/
def writeLoop (c : Client) (left : List UInt8) (env : Environment) : Client × Outcome :=
  if c.fifobuf.empty then
    let nwri := (nonblkWrite left env.writes).1
    let c := c.send (left.take nwri)
    let left := left.drop nwri
    if left.length = 0 then (c, .returns left) else tryEnter malloc c left env
  else tryEnter malloc c left env

/-- The mutex is locked again after a wait. -/
def wakeUp (c : Client) (env : Environment) : Waiting → Client × Outcome
  | .enter left =>
      -- the timeout leaves through `fifobuf->exit()` as well
      if env.lateLock then (c.exit, .returns left) else tryEnter malloc c left env
  | .room left =>
      if c.fifobuf.empty then writeLoop malloc c.exit left env else bufferRest malloc c left env

/-! ## threads -/

/-- A thread inside `write`: its message, and what it waits for. -/
structure Writer where
  src : List UInt8
  waiting : Waiting

structure State where
  client : Client
  writers : Nat → Option Writer

/-- Nothing has been written. -/
def State.init : State := ⟨⟨[], FifobufferImpl.new, false⟩, fun _ => none⟩

/-- What `write` returns: 0, `-EBADPARM` or `-EBUSY`. -/
inductive Result
  | success
  | ebadparm
  | ebusy
  deriving DecidableEq

/-- A thread calls `write`; a thread goes on after a wait; the event loop sends. -/
inductive Event
  | write (thread : Nat) (buf : List UInt8) (env : Environment)
  | wakeUp (thread : Nat) (env : Environment)
  | fifoWrite (writes : List SysWrite)

/-- `write` of this message has returned; nothing has returned. -/
inductive Reply
  | returned (src : List UInt8) (ret : Result)
  | none

/-- The end of a critical section of `thread`. -/
def leave (s : State) (thread : Nat) (src : List UInt8) : Client × Outcome → State × Reply
  | (c, .waits w) => (⟨c, update s.writers thread (some ⟨src, w⟩)⟩, .none)
  | (c, .returns left) =>
      (⟨c, update s.writers thread none⟩,
        .returned src (if src.length - left.length ≠ src.length then .ebusy else .success))

/-- One critical section of the mutex. A thread that is inside `write` does not call it, and one
that is not does not wake up in it. -/
def step (s : State) : Event → Option (State × Reply)
  | .write thread buf env =>
      match s.writers thread with
      | some _ => some (s, .none)
      | none =>
          if buf.length = 0 then some (s, .returned buf .ebadparm)
          else some (leave s thread buf (writeLoop malloc s.client buf env))
  | .wakeUp thread env =>
      match s.writers thread with
      | none => some (s, .none)
      | some w => some (leave s thread w.src (wakeUp malloc s.client env w.waiting))
  | .fifoWrite writes =>
      (fifoWrite s.client writes).map fun client => ({ s with client }, .none)

/-! ## `fifo_write` moves bytes -/

variable {b : FifobufferImpl}

theorem fifoWriteLoop_spec (h : Inv b) (pos : Nat) (writes : List SysWrite) :
    ∃ sent pos', fifoWriteLoop b pos writes = some (sent, pos') ∧
      sent ++ b.contents.drop pos' = b.contents.drop pos := by
  fun_induction fifoWriteLoop b pos writes with
  | case1 pos writes hpeek => exact absurd ((peekdata_spec h pos 256).symm.trans hpeek) (by simp)
  | case2 pos writes buf hpeek hnone => exact ⟨_, _, rfl, rfl⟩
  | case3 pos writes buf hpeek hsome out hshort =>
      cases hpeek.symm.trans (peekdata_spec h pos 256)
      refine ⟨_, _, rfl, ?_⟩
      rw [length_take] at hshort
      rw [take_take, Nat.min_eq_left (by omega), ← drop_drop, take_append_drop]
  | case4 pos writes buf hpeek hsome out hall hrest ih =>
      obtain ⟨sent, pos', hrun, -⟩ := ih
      exact absurd (hrest.symm.trans hrun) (by simp)
  | case5 pos writes buf hpeek hsome out hall sent pos' hrest ih =>
      cases hpeek.symm.trans (peekdata_spec h pos 256)
      obtain ⟨sent', pos'', hrun, hcont⟩ := ih
      cases hrest.symm.trans hrun
      have hle : out.1 ≤ 256 :=
        (nonblkWrite_le _ _).trans (length_take ▸ Nat.min_le_left _ _)
      refine ⟨_, _, rfl, ?_⟩
      rw [append_assoc, hcont, take_take, Nat.min_eq_left hle, ← drop_drop, take_append_drop]

theorem fifoWrite_spec {c : Client} (h : Inv c.fifobuf) (writes : List SysWrite) :
    ∃ c', fifoWrite c writes = some c' ∧ Inv c'.fifobuf ∧ c'.stream = c.stream ∧
      c'.locked = c.locked := by
  obtain ⟨sent, pos, hloop, hcont⟩ := fifoWriteLoop_spec h 0 writes
  obtain ⟨b, hdiscard, hinv, hrest⟩ := removeDiscard_spec pos h
  have hrun : fifoWrite c writes = some { c.send sent with fifobuf := b } := by
    rw [fifoWrite, hloop]
    simp only [FifobufferImpl.discard, hdiscard, Option.map_some]
  refine ⟨_, hrun, hinv, ?_, rfl⟩
  rw [Client.stream, hrest, Client.send, append_assoc, hcont]
  rfl

/-! ## the messages in the stream -/

/-- The messages whose `write` returned 0. -/
def succeeded : List Reply → List (List UInt8)
  | .returned src .success :: rs => src :: succeeded rs
  | _ :: rs => succeeded rs
  | [] => []

/-- The stream is the messages of the successful writes one behind the other, each once and in
one piece, and at its end a part of the message of a thread that is still in `write`. -/
def Contiguous (s : State) (rs : List Reply) : Prop :=
  ∃ (ms : List (List UInt8)) (last : List UInt8), ms.Perm (succeeded rs) ∧
    s.client.stream = ms.flatten ++ last ∧
    (last = [] ∨ ∃ thread, ∃ w ∈ s.writers thread, last <+: w.src)

/-- What a round leaves for the FIFO. -/
def forFifo (c : Client) (left : List UInt8) (env : Environment) : List UInt8 :=
  if c.fifobuf.empty then left.drop (nonblkWrite left env.writes).1 else left

/-- The FIFO has room for all that is left, or it has no room. Then the time is not over, or nothing
of the message has been handed over. -/
def AllOrNothing (b : FifobufferImpl) (src rest : List UInt8) (env : Environment) : Prop :=
  rest.length ≤ b.room ∨ b.room = 0 ∧ (env.lateRoom = true → rest = src)

/-- A writer that waits inside the FIFO is left alone: the kernel takes nothing from another one
directly, none unlocks the FIFO for it, and its time is not over when it has handed over a part of
its message. No append is cut short by the chunk limit. -/
def LeftAlone (s : State) : Event → Prop
  | .write _ buf env =>
      if s.client.locked then forFifo s.client buf env = buf
      else AllOrNothing s.client.fifobuf buf (forFifo s.client buf env) env
  | .wakeUp thread env => ∀ w ∈ s.writers thread, match w.waiting with
      | .enter left =>
          if s.client.locked then env.lateLock = false
          else env.lateLock = false → AllOrNothing s.client.fifobuf w.src left env
      | .room left => AllOrNothing s.client.fifobuf w.src (forFifo s.client left env) env
  | .fifoWrite _ => True

instance (b : FifobufferImpl) (src rest : List UInt8) (env : Environment) :
    Decidable (AllOrNothing b src rest env) :=
  inferInstanceAs (Decidable (_ ∨ _))

instance decidableLeftAlone (s : State) : (e : Event) → Decidable (LeftAlone s e)
  | .write _ buf env =>
      inferInstanceAs (Decidable (if s.client.locked then forFifo s.client buf env = buf
        else AllOrNothing s.client.fifobuf buf (forFifo s.client buf env) env))
  | .wakeUp thread env =>
      match h : s.writers thread with
      | none => isTrue fun w hw => by cases h.symm.trans hw
      | some ⟨src, .enter left⟩ =>
          decidable_of_iff (if s.client.locked then env.lateLock = false
            else env.lateLock = false → AllOrNothing s.client.fifobuf src left env)
            ⟨fun hw w hw' => by cases h.symm.trans hw'; exact hw, fun hw => hw _ h⟩
      | some ⟨src, .room left⟩ =>
          decidable_of_iff (AllOrNothing s.client.fifobuf src (forFifo s.client left env) env)
            ⟨fun hw w hw' => by cases h.symm.trans hw'; exact hw, fun hw => hw _ h⟩
  | .fifoWrite _ => isTrue trivial

/-- What the thread inside the FIFO has handed over; no other thread has handed over anything. -/
inductive Inside (s : State) : List UInt8 → Prop
  | nobody : s.client.locked = false →
      (∀ thread, ∀ w ∈ s.writers thread, w.waiting = .enter w.src) → Inside s []
  | writer (thread : Nat) (part left : List UInt8) : s.client.locked = true →
      s.writers thread = some ⟨part ++ left, .room left⟩ →
      (∀ other ≠ thread, ∀ w ∈ s.writers other, w.waiting = .enter w.src) → Inside s part

/-- The messages in the order in which their writes returned, and a part of one more. -/
def Ordered (s : State) (rs : List Reply) : Prop :=
  Inv s.client.fifobuf ∧ ∃ part, s.client.stream = (succeeded rs).flatten ++ part ∧ Inside s part

/-! ## one critical section -/

/-- How a critical section may end that begins with `left` behind `part`. -/
inductive Ends (c : Client) (part left : List UInt8) : Client × Outcome → Prop
  | written (c' : Client) : Inv c'.fifobuf → c'.locked = false → c'.stream = c.stream ++ left →
      Ends c part left (c', .returns [])
  | room (c' : Client) (sent rest : List UInt8) : Inv c'.fifobuf → left = sent ++ rest →
      c'.locked = true → c'.stream = c.stream ++ sent → Ends c part left (c', .waits (.room rest))
  | gaveUp (c' : Client) : Inv c'.fifobuf → part = [] → left ≠ [] → c'.locked = false →
      c'.stream = c.stream → Ends c part left (c', .returns left)

variable {c : Client} {part left : List UInt8} {env : Environment}

/-- `left` behind what has been sent directly. -/
theorem Ends.behind {c₁ : Client} {sent rest : List UInt8} {r : Client × Outcome}
    (h : Ends c₁ (part ++ sent) rest r) (hstream : c₁.stream = c.stream ++ sent) :
    Ends c part (sent ++ rest) r := by
  cases h with
  | written c' hinv hlocked hc' =>
      exact .written c' hinv hlocked (by rw [hc', hstream, append_assoc])
  | room c' sent' rest' hinv hrest hlocked hc' =>
      exact .room c' (sent ++ sent') rest' hinv (by rw [hrest, append_assoc]) hlocked
        (by rw [hc', hstream, append_assoc])
  | gaveUp c' hinv hpart hne hlocked hc' =>
      obtain ⟨hpart, hsent⟩ := append_eq_nil_iff.mp hpart
      rw [hsent, append_nil] at hstream
      rw [hsent]
      exact .gaveUp c' hinv hpart hne hlocked (hc'.trans hstream)

/-- Only the stream counts of where a section begins. -/
theorem Ends.of_stream {c₁ : Client} {r : Client × Outcome} (h : Ends c₁ part left r)
    (hstream : c₁.stream = c.stream) : Ends c part left r := by
  rw [← append_nil part] at h
  exact h.behind (hstream.trans (append_nil _).symm)

theorem bufferRest_ends (hinv : Inv c.fifobuf) (hlocked : c.locked = true)
    (hall : AllOrNothing c.fifobuf (part ++ left) left env) :
    Ends c part left (bufferRest malloc c left env) := by
  rcases hall with hfit | ⟨hfull, htime⟩
  · obtain ⟨htaken, hinv', hcont⟩ := append_all malloc hinv hfit
    have hstream : c.kernel ++ (c.fifobuf.append malloc left).1.contents = c.stream ++ left := by
      rw [hcont, Client.stream, append_assoc]
    simp only [bufferRest, htaken, drop_length, length_nil, if_true]
    exact .written _ hinv' rfl hstream
  · simp only [bufferRest, append_none malloc hinv hfull, drop_zero]
    by_cases hnil : left.length = 0
    · rw [if_pos hnil, length_eq_zero_iff.mp hnil]
      exact .written _ hinv rfl (append_nil _).symm
    · rw [if_neg hnil]
      by_cases hlate : env.lateRoom = true
      · -- then nothing of the message has been handed over
        have hpart : part = [] := by simpa using htime hlate
        rw [if_pos hlate]
        exact .gaveUp _ hinv hpart (fun h => hnil (length_eq_zero_iff.mpr h)) rfl rfl
      · rw [if_neg hlate]
        exact .room _ [] left hinv rfl hlocked (append_nil _).symm

theorem tryEnter_ends (hinv : Inv c.fifobuf) (hlocked : c.locked = false)
    (hall : AllOrNothing c.fifobuf (part ++ left) left env) :
    Ends c part left (tryEnter malloc c left env) := by
  have hends : Ends { c with locked := true } part left
      (bufferRest malloc { c with locked := true } left env) := bufferRest_ends malloc hinv rfl hall
  rw [tryEnter, Client.enter, hlocked]
  exact hends.of_stream rfl

/-- **A round on a FIFO that is not locked** puts all that is left of the message behind the
stream, or a part of it and waits inside, or nothing when the message has not been begun. -/
theorem writeLoop_ends (hinv : Inv c.fifobuf) (hlocked : c.locked = false)
    (hall : AllOrNothing c.fifobuf (part ++ left) (forFifo c left env) env) :
    Ends c part left (writeLoop malloc c left env) := by
  unfold forFifo at hall
  unfold writeLoop
  by_cases hempty : c.fifobuf.empty = true
  · rw [if_pos hempty] at hall ⊢
    simp only
    have hsplit := take_append_drop (nonblkWrite left env.writes).1 left
    have hsend : (c.send (left.take (nonblkWrite left env.writes).1)).stream =
        c.stream ++ left.take (nonblkWrite left env.writes).1 := by
      simp only [Client.stream, Client.send, (empty_iff hinv).mp hempty, append_nil]
    generalize left.take (nonblkWrite left env.writes).1 = sent at *
    generalize left.drop (nonblkWrite left env.writes).1 = rest at *
    subst hsplit
    by_cases hnil : rest.length = 0
    · obtain rfl := length_eq_zero_iff.mp hnil
      rw [if_pos hnil, append_nil]
      exact .written _ hinv hlocked hsend
    · rw [if_neg hnil]
      rw [← append_assoc] at hall
      exact (tryEnter_ends malloc (c := c.send sent) hinv hlocked hall).behind hsend
  · rw [if_neg hempty] at hall ⊢
    exact tryEnter_ends malloc hinv hlocked hall

/-- A round on a locked FIFO, of which the kernel takes nothing. -/
theorem writeLoop_locked (hlocked : c.locked = true) (hnone : forFifo c left env = left)
    (hne : left ≠ []) : writeLoop malloc c left env = (c, .waits (.enter left)) := by
  have hwait : tryEnter malloc c left env = (c, .waits (.enter left)) := by
    rw [tryEnter, Client.enter, hlocked]
    rfl
  unfold forFifo at hnone
  unfold writeLoop
  by_cases hempty : c.fifobuf.empty = true
  · rw [if_pos hempty] at hnone ⊢
    have hsent : left.take (nonblkWrite left env.writes).1 = [] := by
      have hsplit := take_append_drop (nonblkWrite left env.writes).1 left
      rw [hnone] at hsplit
      exact append_left_eq_self.mp hsplit
    have hlen : left.length ≠ 0 := fun h => hne (length_eq_zero_iff.mp h)
    simp only [hnone, hsent, if_neg hlen, Client.send, append_nil]
    exact hwait
  · rw [if_neg hempty]
    exact hwait

/-! ## one event -/

theorem succeeded_append (rs rs' : List Reply) :
    succeeded (rs ++ rs') = succeeded rs ++ succeeded rs' := by
  induction rs with
  | nil => rfl
  | cons r rs ih =>
      cases r with
      | none => exact ih
      | returned src ret =>
          cases ret with
          | success => exact congrArg (src :: ·) ih
          | ebadparm => exact ih
          | ebusy => exact ih

variable {s s' : State} {rs : List Reply} {r : Reply}

/-- An event without a success that changes neither the stream nor who is inside. -/
theorem Ordered.keep (h : Ordered s rs) (hinv : Inv s'.client.fifobuf)
    (hstream : s'.client.stream = s.client.stream)
    (hinside : ∀ part, Inside s part → Inside s' part) (hr : succeeded [r] = []) :
    Ordered s' (rs ++ [r]) := by
  obtain ⟨-, part, hs, hin⟩ := h
  refine ⟨hinv, part, ?_, hinside part hin⟩
  rw [succeeded_append, hr, append_nil, hstream, hs]

variable {thread : Nat}

/-- The thread leaves the mutex as it may. -/
theorem Ends.ordered {out : Client × Outcome} (h : Ends s.client part left out)
    (hstream : s.client.stream = (succeeded rs).flatten ++ part)
    (hothers : ∀ other ≠ thread, ∀ w ∈ s.writers other, w.waiting = .enter w.src) :
    Ordered (leave s thread (part ++ left) out).1
      (rs ++ [(leave s thread (part ++ left) out).2]) := by
  have hnone : ∀ c' : Client, c'.locked = false →
      Inside ⟨c', update s.writers thread none⟩ [] := by
    refine fun c' hlocked => .nobody hlocked fun other w hw => ?_
    by_cases hother : other = thread
    · simp only [hother, update_self] at hw
      cases hw
    · simp only [update_of_ne hother] at hw
      exact hothers other hother w hw
  unfold Ordered
  rw [succeeded_append]
  cases h with
  | written c' hinv hlocked hc' =>
      refine ⟨hinv, [], ?_, hnone c' hlocked⟩
      simp only [leave, length_nil, Nat.sub_zero, ne_eq, not_true_eq_false, if_false,
        succeeded, flatten_append, flatten_singleton, append_nil]
      rw [hc', hstream, append_assoc]
  | room c' sent rest hinv hrest hlocked hc' =>
      refine ⟨hinv, part ++ sent, ?_, .writer thread (part ++ sent) rest hlocked ?_ ?_⟩
      · simp only [leave, succeeded, append_nil]
        rw [hc', hstream, append_assoc]
      · simp only [leave, update_self, hrest, append_assoc]
      · intro other hother w hw
        simp only [leave, update_of_ne hother] at hw
        exact hothers other hother w hw
  | gaveUp c' hinv hpart hne hlocked hc' =>
      refine ⟨hinv, [], ?_, hnone c' hlocked⟩
      have hlen : left.length ≠ 0 := fun h => hne (length_eq_zero_iff.mp h)
      rw [hpart] at hstream ⊢
      have hbusy : left.length - left.length ≠ left.length := by omega
      simp only [leave, nil_append, if_pos hbusy, succeeded, append_nil]
      rw [hc', hstream, append_nil]

variable {src : List UInt8}

/-- A thread that has handed over nothing goes on waiting to enter. -/
theorem Inside.enter (h : Inside s part)
    (hthread : ∀ w ∈ s.writers thread, w.waiting = .enter w.src) :
    Inside ⟨s.client, update s.writers thread (some ⟨src, .enter src⟩)⟩ part := by
  cases h with
  | nobody hlocked hall =>
      refine .nobody hlocked fun other w hw => ?_
      by_cases hother : other = thread
      · simp only [hother, update_self] at hw
        cases hw
        rfl
      · simp only [update_of_ne hother] at hw
        exact hall other w hw
  | writer holder part left hlocked hholder hall =>
      have hne : holder ≠ thread := by
        rintro rfl
        exact absurd (hthread _ hholder) (by simp)
      refine .writer holder part left hlocked ?_ fun other hother w hw => ?_
      · simp only [update_of_ne hne, hholder]
      · by_cases hthis : other = thread
        · simp only [hthis, update_self] at hw
          cases hw
          rfl
        · simp only [update_of_ne hthis] at hw
          exact hall other hother w hw

theorem Inside.enter_eq (h : Inside s part) (hthread : s.writers thread = some ⟨src, .enter left⟩) :
    left = src := by
  cases h with
  | nobody _ hall => exact Waiting.enter.inj (hall thread _ hthread)
  | writer holder part left' _ hholder hall =>
      by_cases hother : thread = holder
      · rw [hother, hholder] at hthread
        cases hthread
      · exact Waiting.enter.inj (hall thread hother _ hthread)

/-- On a FIFO that is not locked nobody has handed over a part. -/
theorem Inside.of_unlocked (h : Inside s part) (hlocked : s.client.locked = false) :
    part = [] ∧ ∀ thread, ∀ w ∈ s.writers thread, w.waiting = .enter w.src := by
  cases h with
  | nobody _ hall => exact ⟨rfl, hall⟩
  | writer holder part left hheld _ _ => exact absurd (hheld.symm.trans hlocked) (by decide)

/-- A round of a thread that has handed over nothing, or is not in `write` yet. -/
theorem writeLoop_ordered (h : Ordered s rs) (hne : src ≠ [])
    (hthread : ∀ w ∈ s.writers thread, w.waiting = .enter w.src)
    (halone : if s.client.locked then forFifo s.client src env = src
      else AllOrNothing s.client.fifobuf src (forFifo s.client src env) env) :
    Ordered (leave s thread src (writeLoop malloc s.client src env)).1
      (rs ++ [(leave s thread src (writeLoop malloc s.client src env)).2]) := by
  cases hlocked : s.client.locked with
  | true =>
      rw [hlocked, if_pos rfl] at halone
      rw [writeLoop_locked malloc hlocked halone hne]
      exact h.keep h.1 rfl (fun _ hin => hin.enter hthread) rfl
  | false =>
      rw [hlocked, if_neg Bool.false_ne_true] at halone
      obtain ⟨hinv, part, hstream, hin⟩ := h
      obtain ⟨rfl, hall⟩ := hin.of_unlocked hlocked
      have hends : Ends s.client [] src (writeLoop malloc s.client src env) :=
        writeLoop_ends malloc hinv hlocked halone
      exact hends.ordered hstream fun other _ => hall other

/-- A thread wakes up that waits to enter. -/
theorem wakeUp_enter_ordered (h : Ordered s rs)
    (hthread : s.writers thread = some ⟨src, .enter src⟩)
    (halone : if s.client.locked then env.lateLock = false
      else env.lateLock = false → AllOrNothing s.client.fifobuf src src env) :
    Ordered (leave s thread src (wakeUp malloc s.client env (.enter src))).1
      (rs ++ [(leave s thread src (wakeUp malloc s.client env (.enter src))).2]) := by
  have henter : ∀ w ∈ s.writers thread, w.waiting = .enter w.src := by
    intro w hw
    cases hthread.symm.trans hw
    rfl
  cases hlocked : s.client.locked with
  | true =>
      rw [hlocked, if_pos rfl] at halone
      have hwait : wakeUp malloc s.client env (.enter src) = (s.client, .waits (.enter src)) := by
        simp only [wakeUp, halone, tryEnter, Client.enter, hlocked, if_true, Bool.false_eq_true,
          if_false]
      rw [hwait]
      exact h.keep h.1 rfl (fun _ hin => hin.enter henter) rfl
  | false =>
      rw [hlocked, if_neg Bool.false_ne_true] at halone
      obtain ⟨hinv, part, hstream, hin⟩ := h
      obtain ⟨rfl, hall⟩ := hin.of_unlocked hlocked
      have hends : Ends s.client [] src (wakeUp malloc s.client env (.enter src)) := by
        cases hlate : env.lateLock with
        | false =>
            simp only [wakeUp, hlate, Bool.false_eq_true, if_false]
            exact tryEnter_ends malloc hinv hlocked (halone hlate)
        | true =>
            simp only [wakeUp, hlate, if_true]
            by_cases hnil : src = []
            · rw [hnil]
              exact .written _ hinv rfl (append_nil _).symm
            · exact .gaveUp _ hinv rfl hnil rfl rfl
      exact hends.ordered hstream fun other _ => hall other

/-- The thread wakes up that waits for room. -/
theorem wakeUp_room_ordered (h : Ordered s rs) (hthread : s.writers thread = some ⟨src, .room left⟩)
    (halone : AllOrNothing s.client.fifobuf src (forFifo s.client left env) env) :
    Ordered (leave s thread src (wakeUp malloc s.client env (.room left))).1
      (rs ++ [(leave s thread src (wakeUp malloc s.client env (.room left))).2]) := by
  obtain ⟨hinv, part, hstream, hin⟩ := h
  cases hin with
  | nobody _ hall => exact absurd (hall thread _ hthread) (by simp)
  | writer holder part left' hlocked hholder hall =>
      have hsame : thread = holder := by
        by_contra hother
        exact absurd (hall thread hother _ hthread) (by simp)
      subst hsame
      cases hthread.symm.trans hholder
      have hends : Ends s.client part left (wakeUp malloc s.client env (.room left)) := by
        simp only [wakeUp]
        by_cases hempty : s.client.fifobuf.empty = true
        · rw [if_pos hempty]
          exact (writeLoop_ends malloc (c := s.client.exit) hinv rfl halone).of_stream rfl
        · rw [if_neg hempty]
          rw [forFifo, if_neg hempty] at halone
          exact bufferRest_ends malloc hinv hlocked halone
      exact hends.ordered hstream hall

/-- **One critical section** of writers that are left alone. -/
theorem step_ordered (s : State) (e : Event) (rs : List Reply) (h : Ordered s rs)
    (halone : LeftAlone s e) : ∃ s' r, step malloc s e = some (s', r) ∧ Ordered s' (rs ++ [r]) := by
  have hsame : Ordered s (rs ++ [.none]) := h.keep h.1 rfl (fun _ hin => hin) rfl
  cases e with
  | fifoWrite writes =>
      obtain ⟨c', hrun, hinv, hstream, hlocked⟩ := fifoWrite_spec h.1 writes
      refine ⟨{ s with client := c' }, .none, by simp only [step, hrun, Option.map_some],
        h.keep hinv hstream (fun part hin => ?_) rfl⟩
      cases hin with
      | nobody hunlocked hall => exact .nobody (hlocked.trans hunlocked) hall
      | writer thread part left hheld hholder hall =>
          exact .writer thread part left (hlocked.trans hheld) hholder hall
  | write thread buf env =>
      simp only [step]
      cases hthread : s.writers thread with
      | some w => exact ⟨_, _, rfl, hsame⟩
      | none =>
          by_cases hnil : buf.length = 0
          · simp only [if_pos hnil]
            exact ⟨_, _, rfl, h.keep h.1 rfl (fun _ hin => hin) rfl⟩
          · simp only [if_neg hnil]
            refine ⟨_, _, rfl, writeLoop_ordered malloc h ?_ ?_ halone⟩
            · rintro rfl
              exact hnil rfl
            · intro w hw
              cases hthread.symm.trans hw
  | wakeUp thread env =>
      simp only [step]
      cases hthread : s.writers thread with
      | none => exact ⟨_, _, rfl, hsame⟩
      | some w =>
          have hw := halone w hthread
          refine ⟨_, _, rfl, ?_⟩
          obtain ⟨src, left | left⟩ := w
          · obtain ⟨-, part, -, hin⟩ := id h
            obtain rfl := hin.enter_eq hthread
            exact wakeUp_enter_ordered malloc h hthread hw
          · exact wakeUp_room_ordered malloc h hthread hw

/-! ## runs -/

theorem ordered_init : Ordered .init [] :=
  ⟨inv_new, [], rfl, .nobody rfl fun thread w hw => by cases hw⟩

/-- **Messages stay in one piece**: in every run of any number of writers and of `fifo_write`,
whatever the kernel takes, in which writers inside the FIFO are left alone and no append is cut
short, the stream is the messages of the successful writes in the order in which these returned. -/
theorem writes_contiguous (events : List Event)
    (h : Guarded (step malloc) LeftAlone .init events) :
    ∃ s rs, run (step malloc) .init events = some (s, rs) ∧ Contiguous s rs := by
  obtain ⟨s, rs, hrun, -, part, hstream, hin⟩ :=
    run_guarded_history (step_ordered malloc) ordered_init h
  refine ⟨s, rs, hrun, succeeded rs, part, .refl _, hstream, ?_⟩
  cases hin with
  | nobody _ _ => exact .inl rfl
  | writer thread part left _ hthread _ =>
      exact .inr ⟨thread, _, hthread, prefix_append part left⟩

/-! ## a full FIFO -/

theorem bufferRest_of_fit (c : Client) (env : Environment) (hinv : Inv c.fifobuf)
    (hfit : left.length ≤ c.fifobuf.room) :
    bufferRest malloc c left env =
      (⟨c.kernel, (c.fifobuf.append malloc left).1, false⟩, .returns []) := by
  obtain ⟨htaken, -, -⟩ := append_all malloc hinv hfit
  simp only [bufferRest, htaken, drop_length, length_nil, if_true]
  rfl

theorem bufferRest_of_full (c : Client) (env : Environment) (hinv : Inv c.fifobuf)
    (hfull : c.fifobuf.room = 0) (hne : left ≠ []) (hlate : env.lateRoom = false) :
    bufferRest malloc c left env = (c, .waits (.room left)) := by
  have hlen : left.length ≠ 0 := fun h => hne (length_eq_zero_iff.mp h)
  simp only [bufferRest, append_none malloc hinv hfull, drop_zero, hlen, hlate, if_false,
    Bool.false_eq_true]

/-- A kernel that takes all that `fifo_write` has to send. -/
theorem fifoWriteLoop_all (h : Inv b) {pos k : Nat} {sent : List UInt8} {pos' : Nat}
    (hk : b.contents.length ≤ pos + 256 * k)
    (hrun : fifoWriteLoop b pos (List.replicate k (.took 256)) = some (sent, pos')) :
    b.contents.length ≤ pos' := by
  induction k generalizing pos sent with
  | zero =>
      have hbuf : (b.contents.drop pos).take 256 = [] := by
        rw [drop_of_length_le (by omega), take_nil]
      rw [fifoWriteLoop, peekdata_spec h] at hrun
      simp only [hbuf, length_nil, dite_true] at hrun
      cases hrun
      exact hk
  | succ k ih =>
      rw [fifoWriteLoop, peekdata_spec h] at hrun
      have hlen : ((b.contents.drop pos).take 256).length =
          min 256 (b.contents.length - pos) := by rw [length_take, length_drop]
      by_cases hnone : ((b.contents.drop pos).take 256).length = 0
      · simp only [hnone, dite_true] at hrun
        cases hrun
        omega
      · have hall : nonblkWrite ((b.contents.drop pos).take 256)
            (List.replicate (k + 1) (.took 256)) =
              (((b.contents.drop pos).take 256).length, List.replicate k (.took 256)) := by
          rw [replicate_succ, nonblkWrite, if_neg hnone]
          simp only [show min 256 ((b.contents.drop pos).take 256).length =
            ((b.contents.drop pos).take 256).length by omega, if_neg hnone, drop_length]
          cases k <;> simp [nonblkWrite, replicate_succ]
        simp only [hall, hnone, dite_false, Nat.lt_irrefl] at hrun
        split at hrun
        · cases hrun
        · next hrest =>
          cases hrun
          exact ih (by omega) hrest

theorem fifoWrite_all {c : Client} (h : Inv c.fifobuf) {k : Nat}
    (hk : c.fifobuf.contents.length ≤ 256 * k) :
    ∃ b, fifoWrite c (List.replicate k (.took 256)) = some ⟨c.stream, b, c.locked⟩ ∧ Inv b ∧
      b.contents = [] := by
  obtain ⟨sent, pos, hloop, hcont⟩ := fifoWriteLoop_spec h 0 (List.replicate k (.took 256))
  obtain ⟨b, hdiscard, hinv, hrest⟩ := removeDiscard_spec pos h
  have hle := fifoWriteLoop_all h (by omega) hloop
  rw [drop_of_length_le hle] at hrest hcont
  rw [append_nil, drop_zero] at hcont
  refine ⟨b, ?_, hinv, hrest⟩
  rw [fifoWrite, hloop]
  simp only [FifobufferImpl.discard, hdiscard, Option.map_some, hcont]
  rfl

variable {big : List UInt8}

/-- A message as long as the FIFO has room fills it. -/
theorem exists_full (hbig : big.length = FifobufferImpl.new.room) :
    ∃ b, (FifobufferImpl.new.append malloc big).1 = b ∧ Inv b ∧ b.contents = big ∧ b.room = 0 := by
  have hroom : FifobufferImpl.new.room = 1044480 := by decide
  obtain ⟨-, hinv, hcont⟩ := append_all malloc inv_new hbig.le
  refine ⟨_, rfl, hinv, hcont, ?_⟩
  have hsize := getsize_eq hinv
  rw [hcont] at hsize
  generalize (FifobufferImpl.new.append malloc big).1 = b at hinv hsize
  have hnew : FifobufferImpl.new.contents = [] := rfl
  rw [hnew, nil_append, hbig, hroom, getsize] at hsize
  have h0 : b.chunkcnt ≠ 0 := by
    intro h0
    rw [if_pos h0] at hsize
    omega
  have hlimit := hinv.limit
  have hstart := hinv.start_ge h0
  have hend := hinv.end_le h0
  rw [if_neg h0] at hsize
  rw [room_of_ne_zero h0]
  simp only [chunkSize, headerSize, maxChunkcnt] at *
  omega

theorem one_le_room (hinv : Inv b) (hcont : b.contents = []) : 1 ≤ b.room := by
  have hsize := getsize_eq hinv
  rw [hcont, getsize] at hsize
  by_cases h0 : b.chunkcnt = 0
  · rw [room, h0, if_pos rfl]
    decide
  · have hlimit := hinv.limit
    have hstart := hinv.start_lt h0
    have hend := hinv.end_le h0
    rw [if_neg h0] at hsize
    rw [room_of_ne_zero h0]
    simp only [chunkSize, headerSize, maxChunkcnt, length_nil] at *
    omega

/-- A message fills the FIFO, the next one waits for room in it, and the event loop sends all. -/
def filling (big : List UInt8) (k : Nat) : List Event :=
  [.write 0 big ⟨[], false, false⟩, .write 1 [1] ⟨[], false, false⟩,
    .fifoWrite (List.replicate k (.took 256))]

/-- The first message is in the kernel, and the second one waits inside an empty FIFO. -/
def filled (big : List UInt8) (b : FifobufferImpl) : State :=
  ⟨⟨big, b, true⟩, update (fun _ => none) 1 (some ⟨[1], .room [1]⟩)⟩

theorem run_filling {k : Nat} (hbig : big.length = FifobufferImpl.new.room)
    (hk : big.length ≤ 256 * k) :
    ∃ b, Inv b ∧ b.contents = [] ∧ ∀ events,
      run (step malloc) .init (filling big k ++ events) =
        (run (step malloc) (filled big b) events).map
          (fun p => (p.1, .returned big .success :: .none :: .none :: p.2)) ∧
      (Guarded (step malloc) LeftAlone (filled big b) events →
        Guarded (step malloc) LeftAlone .init (filling big k ++ events)) := by
  have hpos : 0 < FifobufferImpl.new.room := one_le_room inv_new rfl
  have hlen : ¬ big.length = 0 := by omega
  obtain ⟨b, hb, hinv, hcont, hfull⟩ := exists_full malloc hbig
  have hempty : ¬ b.empty = true := by
    rw [empty_iff hinv, hcont]
    exact fun h => hlen (length_eq_zero_iff.mpr h)
  obtain ⟨b', hsend, hinv', hcont'⟩ := fifoWrite_all (c := ⟨[], b, true⟩) (k := k) hinv
    (by rw [hcont]; exact hk)
  have hfirst : step malloc .init (.write 0 big ⟨[], false, false⟩) =
      some (⟨⟨[], b, false⟩, fun _ => none⟩, .returned big .success) := by
    have hrest := bufferRest_of_fit malloc ⟨[], FifobufferImpl.new, true⟩ ⟨[], false, false⟩
      inv_new hbig.le
    rw [hb] at hrest
    have hnew : FifobufferImpl.new.empty = true := rfl
    simp only [step, State.init, hlen, if_false, writeLoop, hnew, if_true, nonblkWrite,
      drop_zero, take_zero, Client.send, append_nil, tryEnter, Client.enter,
      Bool.false_eq_true, hrest, leave, length_nil, Nat.sub_zero, ne_eq, not_true_eq_false]
    rw [update_eq_self_iff.mpr rfl]
  have hsecond : step malloc ⟨⟨[], b, false⟩, fun _ => none⟩ (.write 1 [1] ⟨[], false, false⟩) =
      some (⟨⟨[], b, true⟩, update (fun _ => none) 1 (some ⟨[1], .room [1]⟩)⟩,
        .none) := by
    have hrest := bufferRest_of_full malloc ⟨[], b, true⟩ ⟨[], false, false⟩ hinv hfull
      (cons_ne_nil 1 []) rfl
    simp only [step, length_singleton, Nat.one_ne_zero, if_false, writeLoop, hempty, tryEnter,
      Client.enter, Bool.false_eq_true, hrest, leave]
  have hthird : step malloc ⟨⟨[], b, true⟩, update (fun _ => none) 1
      (some ⟨[1], .room [1]⟩)⟩ (.fifoWrite (List.replicate k (.took 256))) =
        some (filled big b', .none) := by
    simp only [step, hsend, Option.map_some, Client.stream, hcont, nil_append, filled]
  refine ⟨b', hinv', hcont', fun events => ⟨?_, fun hevents => ⟨.inl hbig.le, fun s r h => ?_⟩⟩⟩
  · simp only [filling, cons_append, nil_append, run_cons_of_step hfirst,
      run_cons_of_step hsecond, run_cons_of_step hthird, Option.map_map, comp_def]
  · cases hfirst.symm.trans h
    refine ⟨.inr ⟨hfull, nofun⟩, fun s r h => ?_⟩
    cases hsecond.symm.trans h
    refine ⟨trivial, fun s r h => ?_⟩
    cases hthird.symm.trans h
    exact hevents

/-- As much as the FIFO can hold. -/
def fill : List UInt8 := List.replicate 1044480 0

theorem length_fill : fill.length = FifobufferImpl.new.room :=
  length_replicate.trans (by decide)

/-- The writer that waits for room goes on, and the kernel takes its message. -/
theorem writes_contiguous_fill : ∃ s rs,
    run (step fun _ => zeroChunk) .init
        (filling fill 4080 ++ [.wakeUp 1 ⟨[.intr, .took 1], false, false⟩]) = some (s, rs) ∧
      Contiguous s rs := by
  obtain ⟨b, hinv, hcont, hfilling⟩ := run_filling (fun _ => zeroChunk) length_fill (k := 4080)
    (length_fill.trans (by decide)).le
  refine writes_contiguous _ _ ((hfilling _).2 ⟨fun w hw => ?_, fun _ _ _ => trivial⟩)
  cases hw
  exact .inl (by simp [forFifo, filled, (empty_iff hinv).mpr hcont, nonblkWrite])

/-! ## a write on an empty FIFO while a writer waits inside -/

/-- Of the third message the kernel takes the first byte. -/
def interleaving : List Event :=
  [.write 2 [2, 3] ⟨[.took 1, .error], false, false⟩, .wakeUp 1 ⟨[.took 1], false, false⟩,
    .wakeUp 2 ⟨[], false, false⟩]

theorem run_interleaving (big : List UInt8) (hinv : Inv b) (hcont : b.contents = []) :
    ∃ s, run (step malloc) (filled big b) interleaving =
        some (s, [.none, .returned [1] .success, .returned [2, 3] .success]) ∧
      s.client.stream = big ++ [2, 1, 3] ∧ ∀ thread, s.writers thread = none := by
  have hempty : b.empty = true := (empty_iff hinv).mpr hcont
  have hfit : ([3] : List UInt8).length ≤ b.room := one_le_room hinv hcont
  obtain ⟨-, -, hthree⟩ := append_all malloc hinv hfit
  have hrest := bufferRest_of_fit malloc ⟨big ++ [2, 1], b, true⟩ ⟨[], false, false⟩ hinv hfit
  let ws := (filled big b).writers
  have hfirst : step malloc (filled big b) (.write 2 [2, 3] ⟨[.took 1, .error], false, false⟩) =
      some (⟨⟨big ++ [2], b, true⟩, update ws 2 (some ⟨[2, 3], .enter [3]⟩)⟩, .none) := by
    simp [step, filled, ws, writeLoop, hempty, nonblkWrite, Client.send, tryEnter, Client.enter,
      leave]
  have hsecond : step malloc ⟨⟨big ++ [2], b, true⟩,
      update ws 2 (some ⟨[2, 3], .enter [3]⟩)⟩ (.wakeUp 1 ⟨[.took 1], false, false⟩) =
        some (⟨⟨big ++ [2, 1], b, false⟩, update
          (update ws 2 (some ⟨[2, 3], .enter [3]⟩)) 1 none⟩, .returned [1] .success) := by
    simp [step, filled, ws, wakeUp, writeLoop, hempty, nonblkWrite, Client.send, Client.exit, leave]
  have hthird : step malloc ⟨⟨big ++ [2, 1], b, false⟩, update
      (update ws 2 (some ⟨[2, 3], .enter [3]⟩)) 1 none⟩
        (.wakeUp 2 ⟨[], false, false⟩) =
      some (⟨⟨big ++ [2, 1], (b.append malloc [3]).1, false⟩, update (update
        (update ws 2 (some ⟨[2, 3], .enter [3]⟩)) 1 none) 2 none⟩,
          .returned [2, 3] .success) := by
    simp [step, wakeUp, tryEnter, Client.enter, leave, hrest]
  refine ⟨_, run_cons_eq_some_iff.mpr ⟨_, _, _, hfirst, run_cons_eq_some_iff.mpr
    ⟨_, _, _, hsecond, run_cons_eq_some_iff.mpr ⟨_, _, _, hthird, rfl, rfl⟩, rfl⟩, rfl⟩,
    ?_, fun thread => ?_⟩
  · simp only [Client.stream, hthree, hcont, nil_append, append_assoc, cons_append]
  · simp only [ws, filled, update_apply]
    split_ifs <;> rfl

theorem not_infix (h : ∀ b ∈ big, b ≠ 2) : ¬ [2, 3] <:+: big ++ [2, 1, 3] := by
  induction big with
  | nil => decide
  | cons b big ih =>
      rw [cons_append, infix_cons_iff]
      rintro (hhead | hinfix)
      · exact h b (mem_cons_self ..) (cons_prefix_cons.mp hhead).1.symm
      · exact ih (fun c hc => h c (mem_cons_of_mem _ hc)) hinfix

/-- All three succeed, and the second message stands in the middle of the third. -/
theorem writes_interleaved : ∃ s rs,
    run (step fun _ => zeroChunk) .init (filling fill 4080 ++ interleaving) =
        some (s, rs) ∧
      succeeded rs = [fill, [1], [2, 3]] ∧ s.client.stream = fill ++ [2, 1, 3] ∧
      ¬ Contiguous s rs := by
  obtain ⟨b, hinv, hcont, hfilling⟩ := run_filling (fun _ => zeroChunk) length_fill (k := 4080)
    (length_fill.trans (by decide)).le
  obtain ⟨s, hrun', hstream, hnone⟩ := run_interleaving (fun _ => zeroChunk) fill hinv hcont
  have hrun := (hfilling interleaving).1
  rw [hrun', Option.map_some] at hrun
  refine ⟨s, _, hrun, rfl, hstream, ?_⟩
  rintro ⟨ms, last, hperm, hms, hlast⟩
  have hlast : last = [] := by
    rcases hlast with hlast | ⟨thread, w, hw, -⟩
    · exact hlast
    · rw [hnone thread] at hw
      cases hw
  have hmem : [2, 3] ∈ ms := hperm.mem_iff.mpr
    (mem_cons_of_mem _ (mem_cons_of_mem _ (mem_cons_self ..)))
  obtain ⟨before, after, rfl⟩ := append_of_mem hmem
  have hnot : ¬ [2, 3] <:+: fill ++ [2, 1, 3] := not_infix fun b hb => by
    rw [eq_of_mem_replicate hb]
    decide
  refine hnot ⟨before.flatten, after.flatten, ?_⟩
  rw [← hstream, hms, hlast]
  simp only [flatten_append, flatten_cons, append_assoc, append_nil]

end V2I.Evloop.Writing
