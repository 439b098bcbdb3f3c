import Mathlib.Data.List.InsertIdx
import V2I.Lib.Machine
import V2I.Zasbsc

/-!
# V2I.Webcore.ZeromqMsg

Messages of several parts (`zeromq-msg.cpp`): an envelope that ends with an empty part, the
delimiter, and the body after it. The place where the body starts is kept as an index.

`pop_front` moves the index along; `push_front` and `erase_part` do not, `recv` takes the last
empty part for the delimiter, a message made from a body has none, and `body_insert` inserts in
front of the body whatever its index says. `body_stable_iff` says for each when the body is what
it should be.
-/

namespace V2I.Webcore

open List Machine

/-- `zeromq_msg` -/
structure ZeromqMsg where
  bodyIndex : ℕ
  partData : List Bytes
  deriving DecidableEq

namespace ZeromqMsg

variable {m : ZeromqMsg}

/-- `zeromq_msg()`, and `clear` -/
def empty : ZeromqMsg := ⟨0, []⟩

/-- `zeromq_msg(zeromq_msg&)` and `zeromq_msg(webapp_zeromq_msg*)` -/
def copy (m : ZeromqMsg) : ZeromqMsg := ⟨m.bodyIndex, m.partData⟩

/-- The loop of `recv`: the frames that the socket gives, `none` where it fails. -/
def recvLoop : ZeromqMsg → List (Option Bytes) → ZeromqMsg × Bool
  | m, [] => (m, true)
  | m, none :: _ => (m, false)
  | m, some frame :: frames =>
      let partData := m.partData ++ [frame]
      recvLoop ⟨if frame.length = 0 then partData.length else m.bodyIndex, partData⟩ frames

/-- `recv` -/
def recv (frames : List (Option Bytes)) : ZeromqMsg × Bool := recvLoop empty frames

/-- The frames that `send` gives to the socket. -/
def send (m : ZeromqMsg) : List Bytes := m.partData

/-- `body_parts` -/
def bodyParts (m : ZeromqMsg) : ℕ :=
  if m.partData.length < m.bodyIndex then 0 else m.partData.length - m.bodyIndex

/-- `push_back` -/
def pushBack (m : ZeromqMsg) (part : Bytes) : ZeromqMsg :=
  { m with partData := m.partData ++ [part] }

/-- `append` -/
def append (m : ZeromqMsg) (part : Bytes) : ZeromqMsg := m.pushBack part

/-- `push_front` -/
def pushFront (m : ZeromqMsg) (part : Bytes) : ZeromqMsg :=
  { m with partData := part :: m.partData }

/-- `pop_front` -/
def popFront (m : ZeromqMsg) : ZeromqMsg × Bytes :=
  match m.partData with
  | [] => (m, [])
  | part :: parts => (⟨if 0 < m.bodyIndex then m.bodyIndex - 1 else m.bodyIndex, parts⟩, part)

/-- `erase_part` -/
def erasePart (m : ZeromqMsg) (index : ℕ) : ZeromqMsg × ℤ :=
  if m.partData.length ≤ index then (m, -EBADPARM)
  else ({ m with partData := m.partData.eraseIdx index }, 0)

/-- `body_set`, where the index is not beyond the parts. -/
def bodySet (m : ZeromqMsg) (body : Bytes) : ZeromqMsg × ℤ :=
  if m.partData.length = 0 ∨ m.bodyIndex = 0 then (m, -ENOTAVAIL)
  else (pushBack { m with partData := m.partData.take m.bodyIndex } body, 0)

/-- `body_insert` -/
def bodyInsert (m : ZeromqMsg) (index : ℕ) (body : Bytes) : ZeromqMsg × ℤ :=
  if m.partData.length = 0 ∨ m.bodyIndex = 0 then (m, -ENOTAVAIL)
  else if m.partData.length ≤ m.bodyIndex + index then (m, -EBADPARM)
  else ({ m with partData := m.partData.insertIdx m.bodyIndex body }, 0)

/-- `body`, `none` where the string is made of a null pointer. -/
def body (m : ZeromqMsg) (index : ℕ) : Option Bytes :=
  if m.partData.length = 0 ∨ m.partData.length ≤ m.bodyIndex + index then none
  else m.partData[m.bodyIndex + index]?

/-- `zeromq_msg(char const*, size_t)` -/
def ofBody (body : Bytes) : ZeromqMsg := (empty.bodySet body).1

/-- A message of an envelope, the delimiter and a body. -/
def enveloped (envelope body : List Bytes) : ZeromqMsg :=
  ⟨envelope.length + 1, envelope ++ [] :: body⟩

/-! ## The body of a message -/

/-- `body_parts` and `body` denote these parts. -/
def HasBody (m : ZeromqMsg) (parts : List Bytes) : Prop :=
  m.bodyParts = parts.length ∧ ∀ i < parts.length, m.body i = parts[i]?

/-- A message of two lists of parts has the second one as its body if the index is where it
starts, or beyond where it is empty. -/
theorem hasBody_iff {front parts : List Bytes} (h : m.partData = front ++ parts) :
    m.HasBody parts ↔
      m.bodyIndex = front.length ∨ (parts = [] ∧ front.length ≤ m.bodyIndex) := by
  have hlen : m.partData.length = front.length + parts.length := by rw [h, length_append]
  constructor
  · rintro ⟨hparts, -⟩
    rw [bodyParts] at hparts
    by_cases hnil : parts = []
    · subst hnil
      rw [length_nil] at hparts hlen
      split_ifs at hparts <;> exact .inr ⟨rfl, by omega⟩
    · have hpos := length_pos_iff.mpr hnil
      split_ifs at hparts <;> omega
  · rintro (hindex | ⟨rfl, hle⟩)
    · refine ⟨?_, fun i hi => ?_⟩
      · rw [bodyParts, if_neg (by omega)]
        omega
      · rw [body, if_neg (by omega), h, hindex, getElem?_append_right (Nat.le_add_right _ _)]
        simp
    · refine ⟨?_, by simp⟩
      rw [length_nil, Nat.add_zero] at hlen
      rw [bodyParts, length_nil]
      split_ifs <;> omega

end ZeromqMsg

/-! ## Envelope operations in runs -/

namespace Envelope

open ZeromqMsg

/-- A message, with the number of the parts of its envelope, the body that it should have and the
numbers of `push_front` and `erase_part` so far. -/
structure State where
  msg : ZeromqMsg
  envelope : ℕ
  body : List Bytes
  pushes : ℕ
  erases : ℕ

inductive Call where
  | pushFront (part : Bytes)
  | popFront
  | erasePart (index : ℕ)
  | append (part : Bytes)
  | copy

/-- Only parts of the envelope are popped and erased. -/
def step (s : State) : Call → Option (State × Unit)
  | .pushFront part => some ({ s with
      msg := s.msg.pushFront part, envelope := s.envelope + 1, pushes := s.pushes + 1 }, ())
  | .popFront =>
      if s.envelope = 0 then none
      else some ({ s with msg := s.msg.popFront.1, envelope := s.envelope - 1 }, ())
  | .erasePart index =>
      if s.envelope ≤ index then none
      else some ({ s with
        msg := (s.msg.erasePart index).1, envelope := s.envelope - 1, erases := s.erases + 1 }, ())
  | .append part => some ({ s with msg := s.msg.append part, body := s.body ++ [part] }, ())
  | .copy => some ({ s with msg := s.msg.copy }, ())

def init (envelope body : List Bytes) : State :=
  ⟨enveloped envelope body, envelope.length + 1, body, 0, 0⟩

/-- As many parts have been pushed as erased, or the body is empty and no more. -/
def Balanced (s : State) : Prop := s.pushes = s.erases ∨ (s.body = [] ∧ s.pushes ≤ s.erases)

/-- The parts are the envelope and the body; the index has missed the pushes and the erasures. -/
structure Drift (s : State) : Prop where
  parts : ∃ front, s.msg.partData = front ++ s.body ∧ front.length = s.envelope
  index : s.msg.bodyIndex + s.pushes = s.envelope + s.erases

theorem Drift.hasBody_iff {s : State} (h : Drift s) : s.msg.HasBody s.body ↔ Balanced s := by
  obtain ⟨⟨front, hparts, hlen⟩, hindex⟩ := h
  rw [ZeromqMsg.hasBody_iff hparts, hlen, Balanced]
  refine or_congr ?_ (and_congr_right' ?_)
  · omega
  · omega

theorem drift_init (envelope body : List Bytes) : Drift (init envelope body) where
  parts := ⟨envelope ++ [[]], by simp [init, enveloped], by simp [init]⟩
  index := rfl

theorem Drift.step {s s' : State} {c : Call} {r : Unit} (h : Drift s) (hbal : Balanced s)
    (hstep : step s c = some (s', r)) : Drift s' := by
  obtain ⟨⟨front, hparts, hlen⟩, hindex⟩ := h
  cases c with
  | pushFront part =>
      cases hstep
      refine ⟨⟨part :: front, ?_, ?_⟩, ?_⟩
      · simp [pushFront, hparts]
      · simp [hlen]
      · simp only [pushFront]
        omega
  | popFront =>
      simp only [Envelope.step] at hstep
      split_ifs at hstep with hzero
      cases hstep
      cases front with
      | nil => exact absurd hlen.symm hzero
      | cons part front =>
          rw [cons_append] at hparts
          rw [length_cons] at hlen
          have hpos : 0 < s.msg.bodyIndex := by
            rcases hbal with heq | ⟨-, hle⟩ <;> omega
          refine ⟨⟨front, ?_, ?_⟩, ?_⟩
          · simp [popFront, hparts]
          · simp only
            omega
          · simp only [popFront, hparts, if_pos hpos]
            omega
  | erasePart index =>
      simp only [Envelope.step] at hstep
      split_ifs at hstep with hle
      cases hstep
      have hlt : index < front.length := by omega
      have hparts' : (s.msg.erasePart index).1 =
          { s.msg with partData := front.eraseIdx index ++ s.body } := by
        rw [erasePart, if_neg (by rw [hparts, length_append]; omega), hparts,
          eraseIdx_append_of_lt_length hlt]
      refine ⟨⟨front.eraseIdx index, ?_, ?_⟩, ?_⟩
      · rw [hparts']
      · rw [length_eraseIdx_of_lt hlt, hlen]
      · rw [hparts']
        simp only
        omega
  | append part =>
      cases hstep
      refine ⟨⟨front, ?_, hlen⟩, hindex⟩
      simp [append, pushBack, hparts]
  | copy =>
      cases hstep
      exact ⟨⟨front, hparts, hlen⟩, hindex⟩

/-- **Runs of envelope operations**: the body is the original one with the parts appended, in all
states exactly if the pushes and the erasures are balanced in all. -/
theorem run_hasBody_iff (envelope body : List Bytes) (calls : List Call) :
    (∀ pre, pre <+: calls → ∀ s rs, run step (init envelope body) pre = some (s, rs) →
      s.msg.HasBody s.body) ↔
    ∀ pre, pre <+: calls → ∀ s rs, run step (init envelope body) pre = some (s, rs) →
      Balanced s :=
  run_forall_iff (fun _ h => h.hasBody_iff) (fun _ _ _ _ h hbal => h.step hbal)
    (drift_init envelope body)

end Envelope

/-! ## Other operations -/

namespace ZeromqMsg

variable (m : ZeromqMsg)

/-- The index is that of the last empty frame, or stays. -/
theorem recvLoop_spec (frames : List Bytes) :
    ∃ index, recvLoop m (frames.map some) = (⟨index, m.partData ++ frames⟩, true) ∧
      ((∀ frame ∈ frames, frame ≠ []) → index = m.bodyIndex) ∧
      ((∃ frame ∈ frames, frame = []) → m.partData.length < index) := by
  induction frames generalizing m with
  | nil => exact ⟨m.bodyIndex, by simp [recvLoop], fun _ => rfl, by simp⟩
  | cons frame frames ih =>
      obtain ⟨index, heq, hall, hex⟩ := ih
        ⟨if frame.length = 0 then (m.partData ++ [frame]).length else m.bodyIndex,
          m.partData ++ [frame]⟩
      refine ⟨index, by rw [map_cons, recvLoop, heq]; simp, fun hne => ?_, fun _ => ?_⟩
      · obtain ⟨hframe, hne⟩ := forall_mem_cons.mp hne
        rw [hall hne]
        exact if_neg fun hlen => hframe (length_eq_zero_iff.mp hlen)
      · by_cases hrest : ∃ frame ∈ frames, frame = []
        · have hlt := hex hrest
          rw [length_append] at hlt
          exact Nat.lt_of_le_of_lt (Nat.le_add_right _ _) hlt
        · have hindex := hall fun f hf hnil => hrest ⟨f, hf, hnil⟩
          have hframe : frame = [] := by simp_all
          rw [hindex, hframe]
          simp

theorem recvLoop_append (frames : List Bytes) (rest : List (Option Bytes)) :
    recvLoop m (frames.map some ++ rest) = recvLoop (recvLoop m (frames.map some)).1 rest := by
  induction frames generalizing m with
  | nil => rfl
  | cons frame frames ih => exact ih _

/-- **Reception** of the parts that were sent gives the message back exactly if no part of the
body is empty. -/
theorem recv_send_iff (envelope body : List Bytes) :
    recv ((enveloped envelope body).send.map some) = (enveloped envelope body, true) ↔
      ∀ part ∈ body, part ≠ [] := by
  obtain ⟨index, heq, hall, hex⟩ := recvLoop_spec
    ⟨envelope.length + 1, envelope ++ [[]]⟩ body
  obtain ⟨start, hstart, -⟩ := recvLoop_spec empty envelope
  have hrecv : recv ((enveloped envelope body).send.map some) =
      (⟨index, envelope ++ [] :: body⟩, true) := by
    rw [send, enveloped, map_append, recv, recvLoop_append, hstart, map_cons, recvLoop]
    simpa [empty] using heq
  rw [hrecv, enveloped]
  simp only [Prod.mk.injEq, ZeromqMsg.mk.injEq, and_true]
  constructor
  · rintro rfl part hpart hnil
    have hlt := hex ⟨part, hpart, hnil⟩
    simp at hlt
  · exact hall

/-- **A part in front** that is taken off again leaves the message as it was exactly if it has no
body index. -/
theorem popFront_pushFront_iff (part : Bytes) :
    (m.pushFront part).popFront = (m, part) ↔ m.bodyIndex = 0 := by
  have hpop : (m.pushFront part).popFront =
      (⟨if 0 < m.bodyIndex then m.bodyIndex - 1 else m.bodyIndex, m.partData⟩, part) := rfl
  obtain ⟨index, parts⟩ := m
  simp only [hpop, Prod.mk.injEq, ZeromqMsg.mk.injEq, and_true]
  split_ifs <;> omega

/-- A message made from a body has no parts. -/
theorem body_ofBody (body : Bytes) (i : ℕ) : (ofBody body).body i = none := rfl

theorem cons_eraseIdx_iff (x : Bytes) (l : List Bytes) (i : ℕ) :
    ((x :: l)[i]? = some x ∧ (x :: l).eraseIdx i = l) ↔ i ≤ l.length ∧ ∀ y ∈ l.take i, y = x := by
  induction l generalizing i with
  | nil =>
      cases i with
      | zero => simp
      | succ i => simp
  | cons y l ih =>
      cases i with
      | zero => simp
      | succ i =>
          have hrest := ih i
          simp only [eraseIdx_cons_succ, getElem?_cons_succ, take_succ_cons,
            length_cons, forall_mem_cons, Nat.add_le_add_iff_right] at hrest ⊢
          constructor
          · rintro ⟨hget, herase⟩
            obtain ⟨rfl, herase⟩ := List.cons.inj herase
            obtain ⟨hle, hall⟩ := hrest.mp ⟨hget, herase⟩
            exact ⟨hle, rfl, hall⟩
          · rintro ⟨hle, rfl, hall⟩
            obtain ⟨hget, herase⟩ := hrest.mpr ⟨hle, hall⟩
            exact ⟨hget, congrArg _ herase⟩

theorem insertIdx_append (front parts : List Bytes) (part : Bytes) :
    (front ++ parts).insertIdx front.length part = front ++ part :: parts := by
  induction front with
  | nil => rfl
  | cons p front ih => exact congrArg (p :: ·) ih

/-- What `body_insert` is for: the body has the new part at the index, and around it the parts
that it had. -/
def Inserted (m m' : ZeromqMsg) (index : ℕ) (part : Bytes) : Prop :=
  m'.body index = some part ∧
    (m'.partData.drop m'.bodyIndex).eraseIdx index = m.partData.drop m.bodyIndex

/-- **Insertion** puts the part where the index says exactly if the body has a part there and the
parts before it are the same as the new one. -/
theorem inserted_iff (envelope body : List Bytes) (index : ℕ) (part : Bytes) :
    Inserted (enveloped envelope body) ((enveloped envelope body).bodyInsert index part).1 index
      part ↔ index < body.length ∧ ∀ b ∈ body.take index, b = part := by
  have hlen : (enveloped envelope body).partData.length = envelope.length + 1 + body.length := by
    simp [enveloped]
    omega
  have hindex : (enveloped envelope body).bodyIndex = envelope.length + 1 := rfl
  have hsplit : (enveloped envelope body).partData.insertIdx (envelope.length + 1) part =
      (envelope ++ [[]]) ++ part :: body := by
    rw [← insertIdx_append]
    simp [enveloped]
  rw [bodyInsert, if_neg (by omega)]
  by_cases hlt : index < body.length
  · rw [if_neg (by omega), Inserted]
    have hdrop : ∀ parts : List Bytes,
        ((envelope ++ [[]]) ++ parts).drop (envelope.length + 1) = parts :=
      fun parts => drop_left' (by simp)
    have hbody : (enveloped envelope body).partData.drop (envelope.length + 1) = body := by
      rw [enveloped, append_cons]
      exact hdrop body
    have hget : ZeromqMsg.body ⟨envelope.length + 1, (envelope ++ [[]]) ++ part :: body⟩ index =
        (part :: body)[index]? :=
      ((hasBody_iff rfl).mpr (.inl (by simp))).2 index (Nat.lt_succ_of_lt hlt)
    simp only [hindex, hsplit, hdrop, hbody]
    rw [hget, cons_eraseIdx_iff]
    exact and_congr_left' ⟨fun _ => hlt, fun _ => Nat.le_of_lt hlt⟩
  · rw [if_pos (by omega), Inserted]
    refine iff_of_false ?_ fun h => hlt h.1
    rintro ⟨hget, -⟩
    rw [ZeromqMsg.body, if_pos (by simp only; omega)] at hget
    cases hget

end ZeromqMsg

/-! ## All operations -/

open ZeromqMsg Envelope in
/-- **The body of a message** under each operation: when it is what it should be. -/
theorem body_stable_iff (envelope body : List Bytes) (calls : List Call) (m : ZeromqMsg)
    (part : Bytes) (index : ℕ) :
    ((∀ pre, pre <+: calls → ∀ s rs, run step (init envelope body) pre = some (s, rs) →
        s.msg.HasBody s.body) ↔
      ∀ pre, pre <+: calls → ∀ s rs, run step (init envelope body) pre = some (s, rs) →
        Balanced s) ∧
    (recv ((enveloped envelope body).send.map some) = (enveloped envelope body, true) ↔
      ∀ b ∈ body, b ≠ []) ∧
    ((m.pushFront part).popFront = (m, part) ↔ m.bodyIndex = 0) ∧
    (ofBody part).body 0 ≠ some part ∧
    (Inserted (enveloped envelope body) ((enveloped envelope body).bodyInsert index part).1 index
      part ↔ index < body.length ∧ ∀ b ∈ body.take index, b = part) := by
  refine ⟨run_hasBody_iff envelope body calls, recv_send_iff envelope body,
    popFront_pushFront_iff m part, ?_, inserted_iff envelope body index part⟩
  simp [body_ofBody]

open ZeromqMsg Envelope in
/-- A part in front of a message with a body: `body(0)` is the delimiter. The body has an empty
part: what is received starts after it. A message from a body has none. The second part of a
body: the new part comes before the first. -/
theorem body_moves :
    (∃ s rs, run step (init [[1]] [[2]]) [.pushFront [3]] = some (s, rs) ∧
      ¬ s.msg.HasBody s.body ∧ s.msg.body 0 = some []) ∧
    recv ((enveloped [[1]] [[], [2]]).send.map some) ≠ (enveloped [[1]] [[], [2]], true) ∧
    ((enveloped [[1]] [[2]]).pushFront [3]).popFront ≠ (enveloped [[1]] [[2]], [3]) ∧
    (ofBody [1]).body 0 ≠ some [1] ∧
    ¬ Inserted (enveloped [] [[1], [2]]) ((enveloped [] [[1], [2]]).bodyInsert 1 [3]).1 1 [3] := by
  refine ⟨⟨_, _, rfl, fun h => ?_, by decide⟩, by decide, by decide, by decide, fun h => ?_⟩
  · exact absurd (h.2 0 (by decide)) (by decide)
  · exact absurd h.1 (by decide)

end V2I.Webcore
