import Mathlib.Data.PNat.Basic
import V2I.Lib.Machine

/-!
# V2I.Utils.Timer

The timer wheels of `timer.cpp`: `timermgr_impl` with its five arrays of lists, and the
`start`, `stop`, `restart` and `setinterval` of a timer.

Timers are numbered. The manager is a machine driven by its callers: a clock step
(`steprun`) runs until the first callback is made or the step is over, a callback may call
any timer, and when it returns the step goes on (`ret`). Every reply of a running step says
which timer's callback was made, and in which jiffy.
-/

namespace V2I.Timer

/-- `timermgr_impl`, with the timers linked to its lists. The lists are the 512 heads
allocated by `timer_init`, in their order in memory. -/
structure TimerMgr where
  jiffies : ℕ
  timerJiffies : ℕ
  /-- `t1.index` to `t5.index` -/
  index : Fin 5 → ℕ
  slots : ℕ → List ℕ
  interval : ℕ → ℕ
  expire : ℕ → ℕ
  /-- a callback is being run -/
  running : Bool

/-- `t1.timer_list` to `t5.timer_list`, as positions in the allocated array. -/
def timerList : Fin 5 → ℕ
  | 0 => 0
  | 1 => 256
  | 2 => 256 + 64
  | 3 => 256 + 64 + 64
  | 4 => 256 + 64 + 64 + 64

/-- The wheel `t1`. -/
abbrev t1 : Fin 5 := 0

/-- The jiffies of an interval in milliseconds (`create_timer`, `setinterval`). -/
def jiffiesOf (minInterval : ℕ+) (timelen : UInt32) : ℕ :=
  (timelen.toNat + minInterval - 1) / minInterval

/-- A new manager, and the timers created for it. -/
def TimerMgr.new (minInterval : ℕ+) (timelen : ℕ → UInt32) : TimerMgr where
  jiffies := 0
  timerJiffies := 0
  index _ := 0
  slots _ := []
  interval x := jiffiesOf minInterval (timelen x)
  expire x := jiffiesOf minInterval (timelen x)
  running := false

/-! ## Lists -/

/-- `listnode_add`: to the end of a list. -/
def listnodeAdd (m : TimerMgr) (i x : ℕ) : TimerMgr :=
  { m with slots := Function.update m.slots i (m.slots i ++ [x]) }

/-- `listnode_del`: out of the list it is in. -/
def listnodeDel (m : TimerMgr) (x : ℕ) : TimerMgr :=
  { m with slots := fun i => (m.slots i).erase x }

/-- `listnode_issingle` -/
def listnodeIssingle (m : TimerMgr) (x : ℕ) : Bool :=
  !(List.range 512).any fun i => x ∈ m.slots i

/-- `get_timer_list(tmr)`: the list for an expiry. -/
def getTimerList (m : TimerMgr) (expire : ℕ) : ℕ :=
  let t := (expire + 2 ^ 64 - m.timerJiffies) % 2 ^ 64
  if t < 256 then timerList 0 + expire % 256
  else if t < 2 ^ (6 + 8) then timerList 1 + expire / 2 ^ 8 % 2 ^ 6
  else if t < 2 ^ (12 + 8) then timerList 2 + expire / 2 ^ (8 + 6) % 2 ^ 6
  else if t < 2 ^ (18 + 8) then timerList 3 + expire / 2 ^ (8 + 12) % 2 ^ 6
  -- `(int)t < 0`: the sign bit of the low word
  else if 2 ^ 31 ≤ t % 2 ^ 32 then timerList 0 + m.index 0
  else timerList 4 + expire / 2 ^ (8 + 3 * 6) % 2 ^ 6

/-! ## Timers -/

/-- `timer_impl::start()` -/
def start (m : TimerMgr) (x : ℕ) : TimerMgr × Bool :=
  if m.interval x = 0 then (m, false)
  else if !listnodeIssingle m x then (m, false)
  else
    let expire := (m.jiffies + m.interval x) % 2 ^ 64
    let m := { m with expire := Function.update m.expire x expire }
    (listnodeAdd m (getTimerList m expire) x, true)

/-- `timer_impl::stop()` -/
def stop (m : TimerMgr) (x : ℕ) : TimerMgr :=
  if listnodeIssingle m x then m else listnodeDel m x

/-- `timer_impl::restart()` -/
def restart (m : TimerMgr) (x : ℕ) : TimerMgr := (start (stop m x) x).1

/-- `timer_impl::setinterval(intv)` -/
def setinterval (minInterval : ℕ+) (m : TimerMgr) (x : ℕ) (intv : UInt32) : TimerMgr :=
  let m := stop m x
  { m with interval := Function.update m.interval x (jiffiesOf minInterval intv) }

/-! ## Running -/

/-- The loop of `move_timers` over the list `i`; `curr` is where it is, `none` the head.
`next` is read before the node is moved. Two nodes that come back to the list they are
moved from would be moved forever, which is what the fuel is for. -/
def moveLoop (i : ℕ) : ℕ → Option ℕ → TimerMgr → Option TimerMgr
  | _, none, m => some m
  | 0, some _, _ => none
  | fuel + 1, some curr, m =>
      let next := ((m.slots i).dropWhile (· ≠ curr)).tail.head?
      let m := listnodeDel m curr
      moveLoop i fuel next (listnodeAdd m (getTimerList m (m.expire curr)) curr)

/-- `move_timers(tv)` -/
def moveTimers (m : TimerMgr) (tv : Fin 5) : Option TimerMgr :=
  let i := timerList tv + m.index tv
  (moveLoop i ((m.slots i).length + 1) (m.slots i).head? m).map fun m =>
    { m with index := Function.update m.index tv ((m.index tv + 1) % 64) }

/-- The `do … while` of `run_timer_list`, over the wheels that are left. -/
def moveAll : List (Fin 5) → TimerMgr → Option TimerMgr
  | [], m => some m
  | tv :: tvs, m =>
      match moveTimers m tv with
      | none => none
      | some m => if m.index tv = 1 then moveAll tvs m else some m

/-- The wheels are moved on when the first one starts over. -/
def checkMove (m : TimerMgr) : Option TimerMgr :=
  if m.index 0 = 0 then moveAll [1, 2, 3, 4] m else some m

/-- The end of a round of `run_timer_list`. -/
def nextTick (m : TimerMgr) : TimerMgr :=
  { m with
    index := Function.update m.index 0 ((m.index 0 + 1) % 256)
    timerJiffies := (m.timerJiffies + 1) % 2 ^ 64 }

/-- `run_timer` up to its next callback, or `rest` when the list is empty. -/
def runTimer (rest : TimerMgr → Option (TimerMgr × Option ℕ)) (m : TimerMgr) :
    Option (TimerMgr × Option ℕ) :=
  match m.slots (timerList 0 + m.index 0) with
  | x :: _ => some ({ listnodeDel m x with running := true }, some x)
  | [] => rest (nextTick m)

/-- `run_timer_list()` up to its next callback or to its end. -/
def runTimerList : ℕ → TimerMgr → Option (TimerMgr × Option ℕ)
  | 0, _ => none
  | fuel + 1, m =>
      if m.timerJiffies ≤ m.jiffies then
        match checkMove m with
        | none => none
        | some m => runTimer (runTimerList fuel) m
      else some ({ m with running := false }, none)

/-- Rounds enough for every run of the loop that ends: it only runs on past `jiffies` when
`timer_jiffies` wraps. -/
def rounds (m : TimerMgr) : ℕ := m.jiffies + 2 - m.timerJiffies

/-! ## The machine -/

/-- What the users of a manager do. -/
inductive Input
  | start (x : ℕ)
  | stop (x : ℕ)
  | restart (x : ℕ)
  | setinterval (x : ℕ) (intv : UInt32)
  /-- a clock step, `steprun` -/
  | steprun
  /-- a callback returns -/
  | ret
  deriving DecidableEq

/-- What they see. -/
inductive Reply
  | started (ok : Bool)
  | unit
  /-- the callback of a timer is made, in a jiffy -/
  | fired (x jiffies : ℕ)
  /-- the clock step is over -/
  | idle
  deriving DecidableEq

/-- The reply of a step that went on to the next callback or to its end. -/
def progress (r : Option (TimerMgr × Option ℕ)) : Option (TimerMgr × Reply) :=
  match r with
  | none => none
  | some (m, some x) => some (m, .fired x m.jiffies)
  | some (m, none) => some (m, .idle)

/-- The machine. Clock steps are not made from callbacks, and only callbacks return. -/
def step (minInterval : ℕ+) (m : TimerMgr) : Input → Option (TimerMgr × Reply)
  | .start x => some ((start m x).1, .started (start m x).2)
  | .stop x => some (stop m x, .unit)
  | .restart x => some (restart m x, .unit)
  | .setinterval x intv => some (setinterval minInterval m x intv, .unit)
  | .steprun =>
      if m.running then none
      else
        let m := { m with jiffies := (m.jiffies + 1) % 2 ^ 64 }
        progress (runTimerList (rounds m) m)
  | .ret =>
      if m.running then progress (runTimer (runTimerList (rounds (nextTick m))) m) else none

end V2I.Timer

/-!
## Deadlines

What the timers are for: every started timer has a deadline, the jiffy of its start plus its
interval, and its callback is made in that jiffy. The machine here keeps the deadlines and
nothing else.

It is only strict about intervals below `2 ^ 31`: a longer timer may be called at any time.
`fires_once` reads off a run of it what happens to one timer.
-/

namespace V2I.Timer

open Machine (Runs)

/-- The deadlines of the timers that are waiting. -/
structure Deadlines where
  now : ℕ
  running : Bool
  due : ℕ → Option ℕ
  interval : ℕ → ℕ

namespace Deadlines

/-- The timers whose deadline is kept. -/
def Short (q : Deadlines) (x : ℕ) : Prop := q.interval x < 2 ^ 31

/-- A timer can be started. -/
def startable (q : Deadlines) (x : ℕ) : Bool := q.interval x ≠ 0 && q.due x = none

def arm (q : Deadlines) (x : ℕ) : Deadlines :=
  if q.startable x then { q with due := Function.update q.due x (some (q.now + q.interval x)) }
  else q

def disarm (q : Deadlines) (x : ℕ) : Deadlines := { q with due := Function.update q.due x none }

/-- A clock step goes on: a callback is made, or the step is over. -/
inductive Goes (q : Deadlines) : Reply → Deadlines → Prop
  /-- a timer is called in the jiffy of its deadline -/
  | fired {x d : ℕ} : q.due x = some d → (q.Short x → d = q.now) →
      Goes q (.fired x q.now) { q.disarm x with running := true }
  /-- no deadline is passed over -/
  | idle : (∀ x d, q.due x = some d → q.Short x → q.now < d) →
      Goes q .idle { q with running := false }

/-- The machine of deadlines. -/
inductive Step (minInterval : ℕ+) : Deadlines → Input → Reply → Deadlines → Prop
  | start {q : Deadlines} (x : ℕ) : Step minInterval q (.start x) (.started (q.startable x)) (q.arm x)
  | stop {q : Deadlines} (x : ℕ) : Step minInterval q (.stop x) .unit (q.disarm x)
  | restart {q : Deadlines} (x : ℕ) : Step minInterval q (.restart x) .unit ((q.disarm x).arm x)
  | setinterval {q : Deadlines} (x : ℕ) (intv : UInt32) :
      Step minInterval q (.setinterval x intv) .unit
        { q.disarm x with interval := Function.update q.interval x (jiffiesOf minInterval intv) }
  | steprun {q q' : Deadlines} {r : Reply} : q.running = false → Goes { q with now := q.now + 1 } r q' →
      Step minInterval q .steprun r q'
  | ret {q q' : Deadlines} {r : Reply} : q.running = true → Goes q r q' →
      Step minInterval q .ret r q'

/-- The jiffies in which a timer was called. -/
def fires (x : ℕ) : List Reply → List ℕ
  | [] => []
  | .fired y j :: rs => if y = x then j :: fires x rs else fires x rs
  | _ :: rs => fires x rs

/-- A call that stops a timer or starts it anew. -/
def Touches (x : ℕ) (c : Input) (r : Reply) : Prop :=
  (c = .start x ∧ r = .started true) ∨ c = .stop x ∨ c = .restart x ∨ ∃ intv, c = .setinterval x intv

/-- Nobody stops a timer or starts it anew. -/
def Untouched (x : ℕ) (cs : List Input) (rs : List Reply) : Prop :=
  ∀ p ∈ cs.zip rs, ¬ Touches x p.1 p.2

/-- A deadline is not yet passed. -/
def Ahead (q : Deadlines) (d : ℕ) : Prop := q.now < d ∨ (q.now = d ∧ q.running = true)

variable (q : Deadlines)

@[simp] theorem disarm_now (x : ℕ) : (q.disarm x).now = q.now := rfl

@[simp] theorem disarm_running (x : ℕ) : (q.disarm x).running = q.running := rfl

@[simp] theorem disarm_interval (x : ℕ) : (q.disarm x).interval = q.interval := rfl

@[simp] theorem arm_now (x : ℕ) : (q.arm x).now = q.now := by
  unfold arm; split <;> rfl

@[simp] theorem arm_running (x : ℕ) : (q.arm x).running = q.running := by
  unfold arm; split <;> rfl

@[simp] theorem arm_interval (x : ℕ) : (q.arm x).interval = q.interval := by
  unfold arm; split <;> rfl

variable {x : ℕ}

@[simp] theorem disarm_due_ne {y : ℕ} (h : y ≠ x) : (q.disarm x).due y = q.due y := by
  simp [disarm, h]

@[simp] theorem disarm_due_self (x : ℕ) : (q.disarm x).due x = none := by
  simp [disarm]

@[simp] theorem arm_due_ne {y : ℕ} (h : y ≠ x) : (q.arm x).due y = q.due y := by
  unfold arm; split <;> simp [h]

theorem arm_of_not_startable {q : Deadlines} (h : q.startable x = false) : q.arm x = q := by
  simp [arm, h]

theorem fires_cons (x : ℕ) (r : Reply) (rs : List Reply) :
    fires x (r :: rs) = fires x [r] ++ fires x rs := by
  cases r with
  | fired y j => by_cases h : y = x <;> simp [fires, h]
  | started ok => rfl
  | unit => rfl
  | idle => rfl

theorem fires_fired_ne {y : ℕ} (h : y ≠ x) (j : ℕ) : fires x [.fired y j] = [] := by
  simp [fires, h]

/-- A short timer waits for its deadline. -/
structure Waiting (q : Deadlines) (x d : ℕ) : Prop where
  due : q.due x = some d
  short : q.Short x
  ahead : q.Ahead d

variable {q' : Deadlines} {r : Reply}

/-- A step that goes on calls a waiting timer in the jiffy of its deadline only. -/
theorem Goes.waiting {q : Deadlines} {d : ℕ} (h : Goes q r q') (hdue : q.due x = some d)
    (hshort : q.Short x) (hnow : q.now ≤ d) :
    (Waiting q' x d ∧ fires x [r] = []) ∨
      (q'.due x = none ∧ fires x [r] = [d] ∧ d ≤ q'.now) := by
  cases h with
  | @fired y e hy hshorty =>
      by_cases hyx : y = x
      · subst hyx
        right
        have hd : d = q.now := by rw [hy] at hdue; cases hdue; exact hshorty hshort
        simp [fires, hd]
      · left
        refine ⟨⟨?_, hshort, ?_⟩, fires_fired_ne hyx _⟩
        · simpa [Ne.symm hyx] using hdue
        · simpa [Ahead] using Nat.lt_or_eq_of_le hnow
  | idle hahead => exact .inl ⟨⟨hdue, hshort, .inl (hahead x d hdue hshort)⟩, rfl⟩

variable {c : Input}

/-- **One step**: a waiting timer that is not touched keeps waiting, or is called in the
jiffy of its deadline. -/
theorem Step.waiting {q : Deadlines} {d : ℕ} (h : Step minInterval q c r q') (hx : ¬ Touches x c r)
    (hw : Waiting q x d) :
    (Waiting q' x d ∧ fires x [r] = []) ∨
      (q'.due x = none ∧ fires x [r] = [d] ∧ d ≤ q'.now) := by
  obtain ⟨hdue, hshort, hahead⟩ := hw
  cases h with
  | start y =>
      left
      by_cases hyx : y = x
      · subst hyx
        rw [arm_of_not_startable (by simp [startable, hdue])]
        exact ⟨⟨hdue, hshort, hahead⟩, rfl⟩
      · refine ⟨⟨by simpa [Ne.symm hyx] using hdue, ?_, ?_⟩, rfl⟩
        · simpa [Short] using hshort
        · simpa [Ahead] using hahead
  | stop y =>
      have hyx : x ≠ y := fun heq => hx (.inr (.inl (by rw [heq])))
      exact .inl ⟨⟨by simpa [hyx] using hdue, hshort, hahead⟩, rfl⟩
  | restart y =>
      have hyx : x ≠ y := fun heq => hx (.inr (.inr (.inl (by rw [heq]))))
      refine .inl ⟨⟨by simpa [hyx] using hdue, ?_, ?_⟩, rfl⟩
      · simpa [Short] using hshort
      · simpa [Ahead] using hahead
  | setinterval y intv =>
      have hyx : x ≠ y := fun heq => hx (.inr (.inr (.inr ⟨intv, by rw [heq]⟩)))
      refine .inl ⟨⟨by simpa [hyx] using hdue, ?_, hahead⟩, rfl⟩
      simpa [Short, hyx] using hshort
  | steprun hrun hgoes =>
      have hnow : q.now + 1 ≤ d := by
        rcases hahead with hlt | ⟨-, hrun'⟩
        · exact hlt
        · rw [hrun] at hrun'; cases hrun'
      exact hgoes.waiting hdue hshort hnow
  | ret hrun hgoes =>
      refine hgoes.waiting hdue hshort ?_
      unfold Ahead at hahead
      omega

theorem Goes.silent {q : Deadlines} (h : Goes q r q') (hdue : q.due x = none) :
    q'.due x = none ∧ fires x [r] = [] ∧ q.now ≤ q'.now := by
  cases h with
  | @fired y e hy hshorty =>
      have hyx : y ≠ x := fun heq => by rw [heq, hdue] at hy; cases hy
      exact ⟨by simpa [Ne.symm hyx] using hdue, fires_fired_ne hyx _, le_rfl⟩
  | idle hahead => exact ⟨hdue, rfl, le_rfl⟩

/-- A timer that does not wait is not called. -/
theorem Step.silent {q : Deadlines} (h : Step minInterval q c r q') (hx : ¬ Touches x c r)
    (hdue : q.due x = none) : q'.due x = none ∧ fires x [r] = [] ∧ q.now ≤ q'.now := by
  cases h with
  | start y =>
      by_cases hyx : y = x
      · subst hyx
        have hno : q.startable y = false := by
          by_contra hyes
          exact hx (.inl ⟨rfl, by rw [Bool.not_eq_false] at hyes; rw [hyes]⟩)
        rw [arm_of_not_startable hno]
        exact ⟨hdue, rfl, le_rfl⟩
      · exact ⟨by simpa [Ne.symm hyx] using hdue, rfl, by simp⟩
  | stop y =>
      have hyx : x ≠ y := fun heq => hx (.inr (.inl (by rw [heq])))
      exact ⟨by simpa [hyx] using hdue, rfl, by simp⟩
  | restart y =>
      have hyx : x ≠ y := fun heq => hx (.inr (.inr (.inl (by rw [heq]))))
      exact ⟨by simpa [hyx] using hdue, rfl, by simp⟩
  | setinterval y intv =>
      have hyx : x ≠ y := fun heq => hx (.inr (.inr (.inr ⟨intv, by rw [heq]⟩)))
      exact ⟨by simpa [hyx] using hdue, rfl, by simp⟩
  | steprun hrun hgoes =>
      obtain ⟨hnone, hfires, hnow⟩ := hgoes.silent hdue
      exact ⟨hnone, hfires, (Nat.le_succ _).trans hnow⟩
  | ret hrun hgoes => exact hgoes.silent hdue

variable {cs : List Input} {rs : List Reply}

theorem untouched_cons : Untouched x (c :: cs) (r :: rs) ↔ ¬ Touches x c r ∧ Untouched x cs rs := by
  simp [Untouched]

theorem runs_silent {q : Deadlines} (h : Runs (Step minInterval) q cs rs q')
    (hx : Untouched x cs rs) (hdue : q.due x = none) : fires x rs = [] ∧ q.now ≤ q'.now := by
  induction h with
  | nil q => exact ⟨rfl, le_rfl⟩
  | cons hstep hruns ih =>
      obtain ⟨hc, hcs⟩ := untouched_cons.mp hx
      obtain ⟨hnone, hfires, hnow⟩ := hstep.silent hc hdue
      obtain ⟨hfires', hnow'⟩ := ih hcs hnone
      exact ⟨by rw [fires_cons, hfires, hfires', List.nil_append], hnow.trans hnow'⟩

/-- **Runs**: a short timer that waits and is not touched is called exactly once, in the
jiffy of its deadline, and it is called by the end of the clock step of that jiffy. -/
theorem fires_once {q : Deadlines} {d : ℕ} (h : Runs (Step minInterval) q cs rs q')
    (hx : Untouched x cs rs) (hw : Waiting q x d) :
    (fires x rs = [] ∧ q'.Ahead d) ∨ (fires x rs = [d] ∧ d ≤ q'.now) := by
  induction h with
  | nil q => exact .inl ⟨rfl, hw.ahead⟩
  | cons hstep hruns ih =>
      obtain ⟨hc, hcs⟩ := untouched_cons.mp hx
      rw [fires_cons]
      rcases hstep.waiting hc hw with ⟨hw', hfires⟩ | ⟨hnone, hfires, hle⟩
      · rw [hfires, List.nil_append]
        exact ih hcs hw'
      · obtain ⟨hfires', hnow⟩ := runs_silent hruns hcs hnone
        rw [hfires, hfires']
        exact .inr ⟨rfl, hle.trans hnow⟩

end Deadlines

end V2I.Timer
