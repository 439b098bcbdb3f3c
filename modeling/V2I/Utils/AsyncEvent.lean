import Mathlib.Algebra.GroupWithZero.Nat
import Mathlib.Algebra.Ring.Int.Defs
import Mathlib.Data.List.Forall2
import V2I.Zasbsc

/-!
# V2I.Utils.AsyncEvent

The output of an `async_event` (`events.cpp`): what the kernel does not take at once waits in a
list of fragments, each with the place in it that is written next.
-/

namespace V2I.Utils.AsyncEvent

open List

/-! ## Writing to the file descriptor -/

/-- What `__write` answers: it takes bytes, it is interrupted (`EINTR`), or it fails. -/
inductive Reply where
  | accepts (n : ℕ)
  | interrupted
  | failed

/-- The most bytes one `write` takes. -/
def maxRwCount : ℕ := 0x7ffff000

/-- The loop of `event_base::write` over the replies of the kernel; when there are no more of
them the kernel is full. The results are the bytes the kernel has, those that are left, and the
replies to come. -/
def writeLoop (kernel : Bytes) : List Reply → Bytes → Bytes × Bytes × List Reply
  | [], ptr => (kernel, ptr, [])
  | r :: rs, ptr =>
      if ptr.isEmpty then (kernel, ptr, r :: rs)
      else
        match r with
        | .interrupted => writeLoop kernel rs ptr
        | .failed => (kernel, ptr, rs)
        | .accepts n =>
            let nwritten := min n (min ptr.length maxRwCount)
            if nwritten = 0 then (kernel, ptr, rs)
            else writeLoop (kernel ++ ptr.take nwritten) rs (ptr.drop nwritten)

/-- `event_base::write` -/
def baseWrite (fd : ℤ) (kernel : Bytes) (rs : List Reply) (ptr : Bytes) :
    Bytes × Bytes × List Reply :=
  if fd < 0 then (kernel, ptr, rs) else writeLoop kernel rs ptr

/-! ## The event -/

/-- `async_event_output_fragment` -/
structure Fragment where
  startPos : ℤ
  buffer : Bytes

/-- `buffer.size() - start_pos` -/
def Fragment.left (f : Fragment) : ℕ := (f.buffer.length - f.startPos).toNat

/-- The fragments in `_outputs`, and the bytes the kernel has got. -/
structure State where
  outputs : List Fragment := []
  kernel : Bytes := []

/-- A number put into an `int`. -/
def toInt (z : ℤ) : ℤ := z.bmod (2 ^ 32)

/-- `async_event::write(buf, sz)`, with its result. -/
def write (st : State) (buf : Option Bytes) (fd : ℤ) (rs : List Reply) : State × ℕ :=
  match buf with
  | none => (st, 0)
  | some buf =>
      if buf.isEmpty then (st, 0)
      else
        match st.outputs.getLast? with
        | none =>
            let (kernel, left, _) := baseWrite fd st.kernel rs buf
            if left.isEmpty then (⟨[], kernel⟩, buf.length) else (⟨[⟨0, left⟩], kernel⟩, buf.length)
        | some f =>
            let f := { f with buffer := f.buffer ++ buf }
            ({ st with outputs := st.outputs.dropLast ++ [f] }, buf.length)

/-- `async_event::output_pending_datasize`: every turn of its loop looks at the first fragment. -/
def outputPendingDatasize (st : State) : ℕ :=
  match st.outputs with
  | [] => 0
  | f :: _ => (st.outputs.map fun _ => f.left).sum

/-- The loop of `async_event::on_output`. There is no result when it reads outside of the
fragment. -/
def outputLoop (fd : ℤ) (kernel : Bytes) (rs : List Reply) : List Fragment → Option State
  | [] => some ⟨[], kernel⟩
  | f :: rest =>
      if 0 ≤ f.startPos ∧ f.startPos ≤ f.buffer.length then
        let (kernel, left, rs) := baseWrite fd kernel rs (f.buffer.drop f.startPos.toNat)
        let wsz := f.left - left.length
        let f' := { f with startPos := toInt (f.startPos + wsz) }
        if wsz < f.left then some ⟨f' :: rest, kernel⟩ else outputLoop fd kernel rs rest
      else none

/-- `async_event::on_output` -/
def onOutput (st : State) (fd : ℤ) (rs : List Reply) : Option State :=
  outputLoop fd st.kernel rs st.outputs

/-! ## What it is for -/

/-- A call, with the file descriptor and the replies of the kernel at that time. -/
inductive Op where
  | write (buf : Option Bytes) (fd : ℤ) (rs : List Reply)
  | onOutput (fd : ℤ) (rs : List Reply)

/-- The state after a call. -/
def Op.run (st : State) : Op → Option State
  | .write buf fd rs => some (AsyncEvent.write st buf fd rs).1
  | .onOutput fd rs => AsyncEvent.onOutput st fd rs

/-- The bytes a call is given. -/
def Op.bytes : Op → Bytes
  | .write buf _ _ => buf.getD []
  | .onOutput _ _ => []

/-- The bytes `p` wait in the fragment, behind `start_pos`. -/
def Fragment.Holds (f : Fragment) (p : Bytes) : Prop :=
  ∃ front, f.buffer = front ++ p ∧ f.startPos = front.length

/-- What the kernel has and what waits are the bytes written, and what waits is counted right. -/
def Good (st : State) (written : Bytes) : Prop :=
  ∃ ps, Forall₂ Fragment.Holds st.outputs ps ∧ st.kernel ++ ps.flatten = written ∧
    outputPendingDatasize st = ps.flatten.length

/-- It is so before and after every call. -/
def Keeps (st : State) (written : Bytes) : List Op → Prop
  | [] => Good st written
  | op :: ops => Good st written ∧ ∃ st', op.run st = some st' ∧ Keeps st' (written ++ op.bytes) ops

/-- How many of `n` bytes the kernel takes. -/
def accepted : List Reply → ℕ → ℕ
  | [], _ => 0
  | r :: rs, n =>
      if n = 0 then 0
      else
        match r with
        | .interrupted => accepted rs n
        | .failed => 0
        | .accepts k =>
            let w := min k (min n maxRwCount)
            if w = 0 then 0 else w + accepted rs (n - w)

def takes (fd : ℤ) (rs : List Reply) (n : ℕ) : ℕ := if fd < 0 then 0 else accepted rs n

/-- With `n` bytes waiting, and `t` taken since the first of them had to wait: whenever bytes have
to wait on, those taken are fewer than `2 ^ 31`. -/
def Fits (n t : ℕ) : List Op → Prop
  | [] => True
  | .write buf fd rs :: ops =>
      if n = 0 then Fits ((buf.getD []).length - takes fd rs (buf.getD []).length) 0 ops
      else Fits (n + (buf.getD []).length) t ops
  | .onOutput fd rs :: ops =>
      if takes fd rs n < n then
        t + takes fd rs n < 2 ^ 31 ∧ Fits (n - takes fd rs n) (t + takes fd rs n) ops
      else Fits 0 0 ops

variable {st st' : State} {p kernel written : Bytes} {t : ℕ} {fd : ℤ} {rs : List Reply}

/-! ## Writing -/

/-- The bytes taken are the first ones, in order. -/
theorem writeLoop_spec (kernel : Bytes) (rs : List Reply) (ptr : Bytes) :
    ∃ front, front ++ (writeLoop kernel rs ptr).2.1 = ptr ∧
      (writeLoop kernel rs ptr).1 = kernel ++ front ∧ front.length = accepted rs ptr.length := by
  induction rs generalizing kernel ptr with
  | nil => exact ⟨[], rfl, (append_nil _).symm, rfl⟩
  | cons r rs ih =>
      unfold writeLoop accepted
      by_cases hptr : ptr = []
      · exact ⟨[], by simp [hptr]⟩
      · rw [if_neg (by simpa using hptr), if_neg (by simpa using hptr)]
        cases r with
        | interrupted => exact ih kernel ptr
        | failed => exact ⟨[], by simp⟩
        | accepts k =>
            simp only
            split
            · exact ⟨[], by simp⟩
            · next hw =>
                generalize hn : min k (min ptr.length maxRwCount) = n at hw ⊢
                obtain ⟨front, hsplit, hkernel, hlen⟩ := ih (kernel ++ ptr.take n) (ptr.drop n)
                refine ⟨ptr.take n ++ front, ?_, ?_, ?_⟩
                · rw [append_assoc, hsplit, take_append_drop]
                · rw [hkernel, append_assoc]
                · rw [length_append, hlen, length_take, length_drop]
                  omega

theorem baseWrite_spec (fd : ℤ) (kernel : Bytes) (rs : List Reply) (ptr : Bytes) :
    ∃ front, front ++ (baseWrite fd kernel rs ptr).2.1 = ptr ∧
      (baseWrite fd kernel rs ptr).1 = kernel ++ front ∧ front.length = takes fd rs ptr.length := by
  unfold baseWrite takes
  split
  · exact ⟨[], rfl, (append_nil _).symm, rfl⟩
  · exact writeLoop_spec kernel rs ptr

/-! ## The fragments -/

/-- The bytes `p` wait, and `t` bytes have been taken since the first of them had to wait: there
is one fragment for them or none. -/
inductive Backlog : List Fragment → Bytes → ℕ → Prop
  | none : Backlog [] [] 0
  | one (front : Bytes) {p : Bytes} (hp : p ≠ []) (hfront : front.length < 2 ^ 31) :
      Backlog [⟨front.length, front ++ p⟩] p front.length

theorem left_mk (front p : Bytes) : (Fragment.mk front.length (front ++ p)).left = p.length := by
  simp only [Fragment.left, length_append]
  omega

variable {outputs : List Fragment}

theorem Backlog.good (h : Backlog outputs p t) (kernel : Bytes) :
    Good ⟨outputs, kernel⟩ (kernel ++ p) := by
  cases h with
  | none => exact ⟨[], .nil, rfl, rfl⟩
  | one front hp hfront =>
      refine ⟨[p], .cons ⟨front, rfl, rfl⟩ .nil, by simp, ?_⟩
      simp [outputPendingDatasize, left_mk]

/-- **A write with nothing waiting** goes to the kernel, and the rest into a fragment. -/
theorem write_of_empty (kernel : Bytes) (buf : Option Bytes) (fd : ℤ) (rs : List Reply) :
    ∃ left, Backlog (write ⟨[], kernel⟩ buf fd rs).1.outputs left 0 ∧
      (write ⟨[], kernel⟩ buf fd rs).1.kernel ++ left = kernel ++ buf.getD [] ∧
      left.length = (buf.getD []).length - takes fd rs (buf.getD []).length := by
  cases buf with
  | none => exact ⟨[], .none, rfl, (Nat.zero_sub _).symm⟩
  | some buf =>
      simp only [write, Option.getD_some]
      by_cases hbuf : buf = []
      · subst hbuf
        exact ⟨[], .none, rfl, (Nat.zero_sub _).symm⟩
      · obtain ⟨front, hsplit, hkernel, hlen⟩ := baseWrite_spec fd kernel rs buf
        generalize baseWrite fd kernel rs buf = result at hsplit hkernel
        obtain ⟨kernel', left, rs'⟩ := result
        have hsum : front.length + left.length = buf.length := by
          rw [← length_append, hsplit]
        simp only at hsplit hkernel
        rw [if_neg (by simpa using hbuf)]
        by_cases hleft : left = []
        · subst hleft
          refine ⟨[], by simpa using Backlog.none, ?_, ?_⟩
          · simp [hkernel, ← hsplit]
          · rw [length_nil, ← hlen, ← hsum, length_nil]
            omega
        · refine ⟨left, ?_, ?_, by omega⟩
          · simpa [hleft] using Backlog.one [] hleft (by decide)
          · simp [hleft, hkernel, ← hsplit]

/-- **A write with bytes waiting** goes behind them. -/
theorem write_of_waiting (f : Fragment) (kernel : Bytes) (buf : Option Bytes) (fd : ℤ)
    (rs : List Reply) : (write ⟨[f], kernel⟩ buf fd rs).1 =
      ⟨[{ f with buffer := f.buffer ++ buf.getD [] }], kernel⟩ := by
  cases buf with
  | none => simp [write]
  | some buf =>
      by_cases hbuf : buf = []
      · simp [write, hbuf]
      · simp [write, hbuf]

/-- **An output event** gives the kernel bytes that wait. -/
theorem onOutput_of_waiting (front p kernel : Bytes) (fd : ℤ) (rs : List Reply) :
    ∃ taken left, taken ++ left = p ∧ taken.length = takes fd rs p.length ∧
      onOutput ⟨[⟨front.length, front ++ p⟩], kernel⟩ fd rs = some
        ⟨if left = [] then [] else [⟨toInt (front.length + taken.length), front ++ p⟩],
          kernel ++ taken⟩ := by
  obtain ⟨taken, hsplit, hkernel, hlen⟩ := baseWrite_spec fd kernel rs p
  generalize hresult : baseWrite fd kernel rs p = result at hsplit hkernel
  obtain ⟨kernel', left, rs'⟩ := result
  simp only at hsplit hkernel
  have hsum : taken.length + left.length = p.length := by rw [← length_append, hsplit]
  refine ⟨taken, left, hsplit, hlen, ?_⟩
  have hinside : (0 : ℤ) ≤ front.length ∧ (front.length : ℤ) ≤ (front ++ p).length := by
    rw [length_append]
    omega
  have hwsz : p.length - left.length = taken.length := by omega
  rw [onOutput, outputLoop, if_pos hinside, left_mk, Int.toNat_natCast, drop_left, hresult]
  simp only [hwsz, hkernel]
  by_cases hleft : left = []
  · have hall : ¬ taken.length < p.length := by simp [← hsum, hleft]
    rw [if_neg hall, if_pos hleft, outputLoop]
  · have hsome : taken.length < p.length := by
      have hpos := length_pos_iff.mpr hleft
      omega
    rw [if_pos hsome, if_neg hleft]

/-! ## Sequences of calls -/

theorem keeps_cons {op : Op} {ops : List Op} (hrun : op.run st = some st') :
    Keeps st written (op :: ops) ↔ Good st written ∧ Keeps st' (written ++ op.bytes) ops := by
  simp [Keeps, hrun]

theorem Keeps.good {ops : List Op} (h : Keeps st written ops) : Good st written := by
  cases ops with
  | nil => exact h
  | cons op ops => exact h.1

/-- A `start_pos` that does not fit its type is lost. -/
theorem not_good_of_le {before after : Bytes} {n : ℕ} (hn : n = before.length) (hbig : 2 ^ 31 ≤ n) :
    ¬ Good ⟨[⟨toInt n, before ++ after⟩], kernel⟩ (kernel ++ after) := by
  rintro ⟨ps, hps, hwritten, -⟩
  obtain ⟨q, rest, ⟨front, hsplit, hstart⟩, hrest, rfl⟩ := forall₂_cons_left_iff.mp hps
  obtain rfl := forall₂_nil_left_iff.mp hrest
  have hq : q = after := by simpa using hwritten
  have hfront : front.length = n := by
    have hlen := congrArg List.length hsplit
    rw [hq, length_append, length_append] at hlen
    omega
  have hlt := Int.bmod_lt (x := n) (Nat.two_pow_pos 32)
  simp only [toInt] at hstart
  omega

/-- A `start_pos` that fits its type is kept. -/
theorem toInt_of_lt {n : ℕ} (hn : n < 2 ^ 31) : toInt n = n :=
  Int.bmod_eq_of_le (by omega) (by omega)

/-- **From any backlog.** -/
theorem keeps_iff_of_backlog (h : Backlog outputs p t) (kernel : Bytes) (ops : List Op) :
    Keeps ⟨outputs, kernel⟩ (kernel ++ p) ops ↔ Fits p.length t ops := by
  induction ops generalizing outputs kernel p t with
  | nil => simp [Keeps, Fits, h.good kernel]
  | cons op ops ih =>
      have hgood := h.good kernel
      cases op with
      | write buf fd rs =>
          rw [keeps_cons rfl, Op.bytes, and_iff_right hgood]
          cases h with
          | none =>
              obtain ⟨left, hleft, hkernel, hlen⟩ := write_of_empty kernel buf fd rs
              rw [Fits, length_nil, if_pos rfl, ← hlen, append_nil, ← hkernel]
              exact ih hleft _
          | one front hp hfront =>
              have hne : p.length ≠ 0 := fun h => hp (length_eq_zero_iff.mp h)
              rw [Fits, if_neg hne, ← length_append, write_of_waiting, append_assoc, append_assoc]
              exact ih (.one front (append_ne_nil_of_left_ne_nil hp _) hfront) kernel
      | onOutput fd rs =>
          cases h with
          | none =>
              have hrun : (Op.onOutput fd rs).run ⟨[], kernel⟩ = some ⟨[], kernel⟩ := rfl
              rw [keeps_cons hrun, and_iff_right hgood, Op.bytes, append_nil, Fits,
                length_nil, if_neg (Nat.not_lt_zero _)]
              exact ih .none kernel
          | one front hp hfront =>
              obtain ⟨taken, left, rfl, hlen, hout⟩ := onOutput_of_waiting front p kernel fd rs
              have hrun : (Op.onOutput fd rs).run ⟨_, kernel⟩ = some _ := hout
              rw [keeps_cons hrun, and_iff_right hgood, Op.bytes, append_nil, Fits, ← hlen,
                ← append_assoc kernel]
              by_cases hleft : left = []
              · subst hleft
                rw [if_pos rfl, if_neg (by simp)]
                exact ih .none _
              · have hpos := length_pos_iff.mpr hleft
                have hrest : (taken ++ left).length - taken.length = left.length := by
                  rw [length_append, Nat.add_sub_cancel_left]
                have hstart : (front.length : ℤ) + taken.length = (front ++ taken).length := by
                  rw [length_append]
                  rfl
                rw [if_neg hleft, if_pos (by rw [length_append]; omega), hrest, hstart,
                  ← append_assoc front, ← length_append]
                by_cases hfits : (front ++ taken).length < 2 ^ 31
                · rw [and_iff_right hfits, toInt_of_lt hfits]
                  exact ih (.one (front ++ taken) hleft hfits) _
                · refine iff_of_false (fun hkeeps => ?_) fun h => hfits h.1
                  exact not_good_of_le rfl (Nat.le_of_not_lt hfits) hkeeps.good

/-- **Every byte once and in order, and counted right**, exactly when fewer than `2 ^ 31` bytes
have been taken from the front whenever bytes have to wait on. -/
theorem keeps_iff (ops : List Op) : Keeps {} [] ops ↔ Fits 0 0 ops :=
  keeps_iff_of_backlog .none [] ops

/-- Bytes that had to wait, and the kernel takes all but one of them. -/
theorem not_keeps_of_length {buf : Bytes} (hbuf : buf.length = 2 ^ 31 + 1) : ¬ Keeps {} [] [
    .write (some buf) 3 [.failed], .onOutput 3 [.accepts maxRwCount, .accepts 4096]] := by
  have hkeeps := keeps_iff_of_backlog .none [] [
    .write (some buf) 3 [.failed], .onOutput 3 [.accepts maxRwCount, .accepts 4096]]
  rw [append_nil] at hkeeps
  rw [hkeeps]
  simp [Fits, takes, accepted, maxRwCount, hbuf]

/-- Two gigabytes and a byte are enough. -/
theorem not_keeps_large : ¬ Keeps {} [] [
    .write (some (List.replicate (2 ^ 31 + 1) 0)) 3 [.failed],
    .onOutput 3 [.accepts maxRwCount, .accepts 4096]] :=
  not_keeps_of_length length_replicate

end V2I.Utils.AsyncEvent
