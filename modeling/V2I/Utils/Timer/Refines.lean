import Mathlib.Data.Fintype.Basic
import Mathlib.Tactic.FinCases
import V2I.Lib.Wheel
import V2I.Utils.Timer

/-!
# V2I.Utils.Timer.Refines

The timer wheels keep the deadlines: every run of the manager is a run of the machine of
deadlines (`step_simulates`), and so a timer is called once, in the jiffy of its expiry
(`timer_fires_once`).

The five arrays of lists are wheels in the sense of `V2I.Lib.Wheel`. What ties a list to the
deadlines of its timers is `Placed`: the list is the slot of the deadline on one of the
wheels, and the deadline is among the keys the wheel holds at its position. A wheel is moved
on in the ticks that are multiples of its unit, and `move_timers` then takes the timers of
its position down to the wheels below.
-/

namespace V2I.Timer

open Wheel Deadlines Machine

/-! ## The five wheels -/

/-- The ticks between two moves of a wheel. -/
def unit : Fin 5 → ℕ
  | 0 => 1
  | 1 => 2 ^ 8
  | 2 => 2 ^ 14
  | 3 => 2 ^ 20
  | 4 => 2 ^ 26

/-- The slots of a wheel. -/
def width : Fin 5 → ℕ
  | 0 => 256
  | 1 => 64
  | 2 => 64
  | 3 => 64
  | 4 => 64

/-- The list of a deadline on one of the wheels. -/
def slot (tv : Fin 5) (d : ℕ) : ℕ := timerList tv + d / unit tv % width tv

variable (tv : Fin 5)

theorem unit_pos : 0 < unit tv := by fin_cases tv <;> decide

theorem width_pos : 0 < width tv := by fin_cases tv <;> decide

/-- The wheels have no list in common. -/
theorem list_injective {tv tv' : Fin 5} {a b : ℕ} (ha : a < width tv) (hb : b < width tv')
    (h : timerList tv + a = timerList tv' + b) : tv = tv' ∧ a = b := by
  fin_cases tv <;> fin_cases tv' <;> simp [timerList, width] at * <;> omega

theorem slot_lt (d : ℕ) : slot tv d < 512 := by
  have h := Nat.mod_lt (d / unit tv) (width_pos tv)
  unfold slot
  fin_cases tv <;> simp [timerList, width] at * <;> omega

/-- The positions of the wheels in the tick `T`. The first one is not moved on before its
list is run. -/
structure At (T : ℕ) (pos : Fin 5 → ℕ) : Prop where
  zero : pos 0 = T
  turned : ∀ tv, pos tv = before (unit tv) T ∨ pos tv = after (unit tv) T

theorem At.turn {T : ℕ} {pos : Fin 5 → ℕ} (h : At T pos) {tv : Fin 5} (htv : tv ≠ 0) :
    At T (Function.update pos tv (after (unit tv) T)) := by
  refine ⟨by simp [Ne.symm htv, h.zero], fun tv' => ?_⟩
  by_cases heq : tv' = tv
  · subst heq
    simp
  · simpa [heq] using h.turned tv'

/-- A list for a deadline. -/
def Placed (pos : Fin 5 → ℕ) (d i : ℕ) : Prop :=
  ∃ tv, i = slot tv d ∧ InWheel (pos tv) (width tv) (d / unit tv)

/-- The list that is run next. -/
def current (pos : Fin 5 → ℕ) : ℕ := timerList t1 + pos t1 % width t1

/-- **What `get_timer_list` finds**: a list for the deadline, on a wheel whose unit has room
in the time left, or the list that is run next when the time left looks negative. -/
theorem getTimerList_spec {m : TimerMgr} {pos : Fin 5 → ℕ} {T d : ℕ} (hT : m.timerJiffies = T)
    (hlt : T < 2 ^ 64) (hat : At T pos) (hidx : m.index 0 = pos 0 % width 0) (hle : T ≤ d)
    (hfar : d - T < 2 ^ 32 ∨ d - T = 2 ^ 32 ∧ InWheel (pos 4) (width 4) (d / unit 4)) :
    (∃ tv, getTimerList m (d % 2 ^ 64) = slot tv d ∧
      InWheel (pos tv) (width tv) (d / unit tv) ∧ (tv ≠ 0 → unit tv ≤ d - T)) ∨
    (2 ^ 31 ≤ d - T ∧ getTimerList m (d % 2 ^ 64) = current pos) := by
  have ht : (d % 2 ^ 64 + 2 ^ 64 - m.timerJiffies) % 2 ^ 64 = d - T := by omega
  have hwheel : ∀ tv, T + unit tv ≤ d → d < T + width tv * unit tv →
      InWheel (pos tv) (width tv) (d / unit tv) := by
    intro tv hu hw
    obtain ⟨hbefore, hafter⟩ := inWheel_of_le (unit_pos tv) hu hw
    rcases hat.turned tv with heq | heq
    · rwa [heq]
    · rwa [heq]
  simp only [getTimerList, ht]
  split_ifs with h1 h2 h3 h4 h5
  · refine .inl ⟨0, ?_, ?_, fun h => absurd rfl h⟩
    · simp only [slot, unit, width, Nat.div_one]
      omega
    · simp only [InWheel, hat.zero, unit, width, Nat.div_one]
      omega
  · refine .inl ⟨1, ?_, hwheel 1 ?_ ?_, fun _ => ?_⟩ <;> simp only [slot, unit, width] at * <;> omega
  · refine .inl ⟨2, ?_, hwheel 2 ?_ ?_, fun _ => ?_⟩ <;> simp only [slot, unit, width] at * <;> omega
  · refine .inl ⟨3, ?_, hwheel 3 ?_ ?_, fun _ => ?_⟩ <;> simp only [slot, unit, width] at * <;> omega
  · exact .inr ⟨by omega, by rw [hidx, current]⟩
  · refine .inl ⟨4, ?_, ?_, fun _ => ?_⟩
    · simp only [slot, unit, width]
      omega
    · rcases hfar with hnear | ⟨-, hin⟩
      · refine hwheel 4 ?_ ?_ <;> simp only [unit, width] <;> omega
      · exact hin
    · simp only [unit]
      omega

/-! ## Lists and deadlines -/

/-- The timers in the lists are those that wait, each in one list, where `W i x d` says that
the list `i` may hold the timer `x` with the deadline `d`. -/
structure Sim (W : ℕ → ℕ → ℕ → Prop) (m : TimerMgr) (q : Deadlines) : Prop where
  interval : m.interval = q.interval
  placed : ∀ i x, x ∈ m.slots i →
    ∃ d, q.due x = some d ∧ m.expire x = d % 2 ^ 64 ∧ i < 512 ∧ W i x d
  linked : ∀ x d, q.due x = some d → ∃ i, x ∈ m.slots i
  unique : ∀ i j x, x ∈ m.slots i → x ∈ m.slots j → i = j
  nodup : ∀ i, (m.slots i).Nodup

namespace Sim

variable {W W' : ℕ → ℕ → ℕ → Prop} {m : TimerMgr} {q : Deadlines}

theorem mono (h : Sim W m q) (hW : ∀ i x d, x ∈ m.slots i → W i x d → W' i x d) : Sim W' m q where
  interval := h.interval
  placed i x hx := by
    obtain ⟨d, hd, he, hi, hw⟩ := h.placed i x hx
    exact ⟨d, hd, he, hi, hW i x d hx hw⟩
  linked := h.linked
  unique := h.unique
  nodup := h.nodup

/-- The lists are all that counts of a manager, the deadlines of the other machine. -/
theorem congr {m' : TimerMgr} {q' : Deadlines} (h : Sim W m q) (hslots : m'.slots = m.slots)
    (hexpire : m'.expire = m.expire) (hinterval : m'.interval = q'.interval) (hdue : q'.due = q.due) :
    Sim W m' q' where
  interval := hinterval
  placed := by simpa only [hslots, hexpire, hdue] using h.placed
  linked := by simpa only [hslots, hdue] using h.linked
  unique := by simpa only [hslots] using h.unique
  nodup := by simpa only [hslots] using h.nodup

variable {x : ℕ}

theorem due_eq_none (h : Sim W m q) (hx : ∀ i, x ∉ m.slots i) : q.due x = none := by
  by_contra hne
  obtain ⟨d, hd⟩ := Option.ne_none_iff_exists'.mp hne
  obtain ⟨i, hi⟩ := h.linked x d hd
  exact hx i hi

theorem not_mem (h : Sim W m q) (hx : q.due x = none) (i : ℕ) : x ∉ m.slots i := by
  intro hmem
  obtain ⟨d, hd, -⟩ := h.placed i x hmem
  rw [hx] at hd
  cases hd

/-- `listnode_issingle` tells the timers that do not wait. -/
theorem listnodeIssingle_iff (h : Sim W m q) (x : ℕ) :
    listnodeIssingle m x = true ↔ q.due x = none := by
  simp only [listnodeIssingle, Bool.not_eq_true', List.any_eq_false, List.mem_range,
    decide_eq_true_eq]
  constructor
  · intro hnot
    refine h.due_eq_none fun i hi => ?_
    obtain ⟨d, -, -, hlt, -⟩ := h.placed i x hi
    exact hnot i hlt hi
  · exact fun hnone i _ => h.not_mem hnone i

theorem del (h : Sim W m q) (x : ℕ) : Sim W (listnodeDel m x) (q.disarm x) where
  interval := h.interval
  placed i y hy := by
    obtain ⟨hyx, hy⟩ := (h.nodup i).mem_erase_iff.mp hy
    rw [disarm_due_ne q hyx]
    exact h.placed i y hy
  linked y d hd := by
    by_cases hyx : y = x
    · rw [hyx, disarm_due_self] at hd
      cases hd
    · rw [disarm_due_ne q hyx] at hd
      obtain ⟨i, hi⟩ := h.linked y d hd
      exact ⟨i, (h.nodup i).mem_erase_iff.mpr ⟨hyx, hi⟩⟩
  unique i j y hi hj := h.unique i j y (List.mem_of_mem_erase hi) (List.mem_of_mem_erase hj)
  nodup i := (h.nodup i).erase x

theorem mem_listnodeAdd {i j y : ℕ} :
    y ∈ (listnodeAdd m i x).slots j ↔ y ∈ m.slots j ∨ (j = i ∧ y = x) := by
  by_cases hji : j = i
  · subst hji
    simp [listnodeAdd]
  · simp [listnodeAdd, hji]

theorem add (h : Sim W m q) {i d : ℕ} (hx : q.due x = none) (hexpire : m.expire x = d % 2 ^ 64)
    (hi : i < 512) (hW : W i x d) :
    Sim W (listnodeAdd m i x) { q with due := Function.update q.due x (some d) } where
  interval := h.interval
  placed j y hy := by
    rcases mem_listnodeAdd.mp hy with hy | ⟨rfl, rfl⟩
    · have hyx : y ≠ x := fun heq => h.not_mem hx j (heq ▸ hy)
      simp only [Function.update_of_ne hyx]
      exact h.placed j y hy
    · exact ⟨d, by simp, hexpire, hi, hW⟩
  linked y e he := by
    by_cases hyx : y = x
    · exact ⟨i, mem_listnodeAdd.mpr (.inr ⟨rfl, hyx⟩)⟩
    · simp only [Function.update_of_ne hyx] at he
      obtain ⟨j, hj⟩ := h.linked y e he
      exact ⟨j, mem_listnodeAdd.mpr (.inl hj)⟩
  unique j k y hj hk := by
    rcases mem_listnodeAdd.mp hj with hj' | ⟨hj', hyx⟩
    · rcases mem_listnodeAdd.mp hk with hk' | ⟨-, hyx⟩
      · exact h.unique j k y hj' hk'
      · exact absurd (hyx ▸ hj') (h.not_mem hx j)
    · rcases mem_listnodeAdd.mp hk with hk' | ⟨hk', -⟩
      · exact absurd (hyx ▸ hk') (h.not_mem hx k)
      · rw [hj', hk']
  nodup j := by
    by_cases hji : j = i
    · subst hji
      simp only [listnodeAdd, Function.update_self]
      exact List.nodup_append.mpr ⟨h.nodup j, List.nodup_singleton x,
        fun a ha b hb heq => h.not_mem hx j (by simp at hb; rwa [← hb, ← heq])⟩
    · simpa [listnodeAdd, hji] using h.nodup j

/-- The deadline of a timer that does not wait is free to change. -/
theorem setExpire (h : Sim W m q) (hx : q.due x = none) (e : ℕ) :
    Sim W { m with expire := Function.update m.expire x e } q where
  interval := h.interval
  placed i y hy := by
    have hyx : y ≠ x := fun heq => h.not_mem hx i (heq ▸ hy)
    simp only [Function.update_of_ne hyx]
    exact h.placed i y hy
  linked := h.linked
  unique := h.unique
  nodup := h.nodup

/-- `stop()` takes the deadline away. -/
theorem stop (h : Sim W m q) (x : ℕ) : Sim W (stop m x) (q.disarm x) := by
  unfold Timer.stop
  split_ifs with hsingle
  · refine h.congr rfl rfl h.interval ?_
    have hx := (h.listnodeIssingle_iff x).mp hsingle
    simp [disarm, ← hx]
  · exact h.del x

end Sim

/-! ## Starting -/

/-- Where a timer may be: in a list for its deadline, or, when its interval is too long for
its deadline to be kept, in the list that is run next. -/
def Where (pos : Fin 5 → ℕ) (q : Deadlines) (i x d : ℕ) : Prop :=
  Placed pos d i ∨ (¬ q.Short x ∧ i = current pos)

theorem current_lt (pos : Fin 5 → ℕ) : current pos < 512 := by
  have := Nat.mod_lt (pos 0) (width_pos 0)
  simp only [current, timerList, width] at *
  omega

/-- What `start()` does to a timer that can be started. -/
def started (m : TimerMgr) (x expire : ℕ) : TimerMgr :=
  { m with expire := Function.update m.expire x expire }

variable {m : TimerMgr} {x : ℕ}

theorem start_of_startable (hzero : m.interval x ≠ 0) (hsingle : listnodeIssingle m x = true) :
    start m x =
      (listnodeAdd (started m x ((m.jiffies + m.interval x) % 2 ^ 64))
        (getTimerList m ((m.jiffies + m.interval x) % 2 ^ 64)) x, true) := by
  simp only [start, hzero, hsingle, if_false, Bool.not_true, Bool.false_eq_true]
  rfl

theorem start_of_not_startable (h : m.interval x = 0 ∨ listnodeIssingle m x = false) :
    start m x = (m, false) := by
  unfold start
  rcases h with h | h <;> simp [h]

variable {q : Deadlines}

/-- `start()` tells whether the timer can be started. -/
theorem start_snd {W : ℕ → ℕ → ℕ → Prop} (h : Sim W m q) (x : ℕ) :
    (start m x).2 = q.startable x := by
  have hsingle := h.listnodeIssingle_iff x
  by_cases hzero : q.interval x = 0
  · rw [start_of_not_startable (.inl (by rwa [h.interval]))]
    simp [startable, hzero]
  by_cases hnone : q.due x = none
  · rw [start_of_startable (by rwa [h.interval]) (hsingle.mpr hnone)]
    simp [startable, hzero, hnone]
  · rw [start_of_not_startable (.inr (by rwa [← Bool.not_eq_true, hsingle]))]
    simp [startable, hnone]

variable {pos : Fin 5 → ℕ} {T : ℕ}

/-- `start()` sets the deadline of a timer that does not wait. -/
theorem start_sim (h : Sim (Where pos q) m q) (hT : m.timerJiffies = T) (hlt : T < 2 ^ 64)
    (hat : At T pos) (hidx : m.index 0 = pos 0 % width 0) (hnow : m.jiffies = q.now)
    (hle : q.interval x ≠ 0 → T ≤ q.now + q.interval x)
    (hfar : q.now + q.interval x - T < 2 ^ 32 ∨ q.now + q.interval x - T = 2 ^ 32 ∧
      InWheel (pos 4) (width 4) ((q.now + q.interval x) / unit 4))
    (hshort : q.Short x → q.now + q.interval x - T < 2 ^ 31) :
    Sim (Where pos q) (start m x).1 (q.arm x) := by
  have hsingle := h.listnodeIssingle_iff x
  cases hq : q.startable x with
  | false =>
      rw [arm_of_not_startable hq, start_of_not_startable]
      · exact h
      · simp only [startable, Bool.and_eq_false_iff, decide_eq_false_iff_not, ne_eq,
          Decidable.not_not] at hq
        rw [h.interval, ← Bool.not_eq_true, hsingle]
        exact hq
  | true =>
      have hstart := hq
      simp only [startable, Bool.and_eq_true, decide_eq_true_eq] at hstart
      obtain ⟨hzero, hnone⟩ := hstart
      rw [start_of_startable (by rwa [h.interval]) (hsingle.mpr hnone), hnow, h.interval]
      simp only [arm, hq, if_true]
      refine (h.setExpire hnone _).add hnone (by simp) ?_ ?_
      · rcases getTimerList_spec hT hlt hat hidx (hle hzero) hfar with ⟨tv, htv, -⟩ | ⟨-, hcur⟩
        · rw [htv]
          exact slot_lt tv _
        · rw [hcur]
          exact current_lt pos
      · rcases getTimerList_spec hT hlt hat hidx (hle hzero) hfar with
          ⟨tv, htv, hin, -⟩ | ⟨hlong, hcur⟩
        · exact .inl ⟨tv, htv, hin⟩
        · exact .inr ⟨fun hs => absurd (hshort hs) (by omega), hcur⟩

/-! ## Moving timers down -/

theorem dropWhile_head (x : ℕ) (l : List ℕ) :
    ((x :: l).dropWhile (· ≠ x)).tail.head? = l.head? := by
  simp

/-- What moving timers and running lists leave alone. -/
structure Same (m m' : TimerMgr) : Prop where
  jiffies : m'.jiffies = m.jiffies
  timerJiffies : m'.timerJiffies = m.timerJiffies
  running : m'.running = m.running

theorem Same.refl (m : TimerMgr) : Same m m := ⟨rfl, rfl, rfl⟩

variable {m' : TimerMgr}

theorem Same.trans {m'' : TimerMgr} (h : Same m m') (h' : Same m' m'') : Same m m'' :=
  ⟨h'.jiffies.trans h.jiffies, h'.timerJiffies.trans h.timerJiffies, h'.running.trans h.running⟩

/-- While the list `i` is moved, its timers have deadlines in the unit that begins. -/
def Moving (pos : Fin 5 → ℕ) (q : Deadlines) (T u i j x d : ℕ) : Prop :=
  if j = i then T ≤ d ∧ d < T + u else Where pos q j x d

variable {tv : Fin 5}

theorem moveLoop_spec {i : ℕ} (hlt : T < 2 ^ 64) (hat : At T pos) (htv : tv ≠ 0)
    (hi : ∀ d, T ≤ d → d < T + unit tv → ∀ tv', slot tv' d = i → tv' = tv) {l : List ℕ} {fuel : ℕ}
    (hfuel : l.length ≤ fuel) (hl : m.slots i = l) (hT : m.timerJiffies = T)
    (hidx : m.index 0 = pos 0 % width 0) (h : Sim (Moving pos q T (unit tv) i) m q) :
    ∃ m', moveLoop i fuel l.head? m = some m' ∧ Sim (Moving pos q T (unit tv) i) m' q ∧
      m'.slots i = [] ∧ Same m m' ∧ m'.index = m.index := by
  have hunit : unit tv ≤ 2 ^ 26 := by fin_cases tv <;> decide
  induction l generalizing fuel m with
  | nil => exact ⟨m, by simp [moveLoop], h, hl, .refl m, rfl⟩
  | cons x l ih =>
      obtain ⟨fuel, rfl⟩ := Nat.exists_eq_add_of_lt (show 0 < fuel by simp at hfuel; omega)
      obtain ⟨d, hd, hexpire, -, hmoving⟩ := h.placed i x (by simp [hl])
      obtain ⟨hle, hgt⟩ : T ≤ d ∧ d < T + unit tv := by simpa [Moving] using hmoving
      have hdel := h.del x
      have hrest : (listnodeDel m x).slots i = l := by simp [listnodeDel, hl]
      have hlist := getTimerList_spec (m := listnodeDel m x) hT hlt hat hidx hle (.inl (by omega))
      obtain ⟨tv', hslot, hin, hroom⟩ : ∃ tv', getTimerList (listnodeDel m x) (d % 2 ^ 64) = slot tv' d ∧
          InWheel (pos tv') (width tv') (d / unit tv') ∧ (tv' ≠ 0 → unit tv' ≤ d - T) := by
        rcases hlist with hlist | ⟨hlong, -⟩
        · exact hlist
        · omega
      have hne : slot tv' d ≠ i := by
        intro heq
        have := hi d hle hgt tv' heq
        subst this
        have := hroom htv
        omega
      have hadd := hdel.add (i := slot tv' d) (d := d) (disarm_due_self q x) hexpire (slot_lt tv' d)
        (by rw [Moving, if_neg hne]; exact .inl ⟨tv', rfl, hin⟩)
      have hsim : Sim (Moving pos q T (unit tv) i) (listnodeAdd (listnodeDel m x) (slot tv' d) x) q := by
        refine hadd.congr rfl rfl h.interval ?_
        simp [disarm, ← hd]
      have hslots : (listnodeAdd (listnodeDel m x) (slot tv' d) x).slots i = l := by
        simp [listnodeAdd, Ne.symm hne, hrest]
      have hfuel' : l.length ≤ fuel := by simp at hfuel; omega
      obtain ⟨m', hloop, hsim', hempty, hsame, hindex⟩ := ih hfuel' hslots hT hidx hsim
      refine ⟨m', ?_, hsim', hempty, ⟨hsame.jiffies, hsame.timerJiffies, hsame.running⟩, hindex⟩
      rw [← hloop, List.head?_cons, Nat.zero_add]
      simp only [moveLoop, hl, dropWhile_head]
      rw [show (listnodeDel m x).expire x = d % 2 ^ 64 from hexpire, hslot]

/-- **`move_timers`** moves a wheel on by one position. -/
theorem moveTimers_spec (h : Sim (Where pos q) m q) (hT : m.timerJiffies = T) (hlt : T < 2 ^ 64)
    (hat : At T pos) (hidx : ∀ tv, m.index tv = pos tv % width tv) (htv : tv ≠ 0)
    (hdvd : unit tv ∣ T) (hpos : pos tv = before (unit tv) T) :
    ∃ m', moveTimers m tv = some m' ∧
      Sim (Where (Function.update pos tv (after (unit tv) T)) q) m' q ∧ Same m m' ∧
      ∀ tv', m'.index tv' = Function.update pos tv (after (unit tv) T) tv' % width tv' := by
  have hposT : pos tv = T / unit tv := by rw [hpos, before_of_dvd (unit_pos tv) hdvd]
  have hnext : after (unit tv) T = pos tv + 1 := by rw [hposT]; rfl
  have hat' := hat.turn htv
  have hmod := Nat.mod_lt (pos tv) (width_pos tv)
  have hslot : ∀ d tv', slot tv' d = timerList tv + pos tv % width tv →
      tv' = tv ∧ d / unit tv % width tv = pos tv % width tv := by
    intro d tv' heq
    obtain ⟨rfl, hdiv⟩ := list_injective (Nat.mod_lt _ (width_pos tv')) hmod heq
    exact ⟨rfl, hdiv⟩
  have hcur : ∀ pos' : Fin 5 → ℕ, current pos' ≠ timerList tv + pos tv % width tv := by
    intro pos' heq
    exact htv (list_injective (Nat.mod_lt _ (width_pos 0)) hmod heq).1.symm
  have hmoving : Sim (Moving (Function.update pos tv (after (unit tv) T)) q T (unit tv)
      (timerList tv + pos tv % width tv)) m q := by
    refine h.mono fun i x d hx hwhere => ?_
    unfold Moving
    split_ifs with hi
    · rcases hwhere with ⟨tv', rfl, hin⟩ | ⟨-, rfl⟩
      · obtain ⟨rfl, hdiv⟩ := hslot d tv' hi
        rw [hin.slot_eq_iff, hposT] at hdiv
        exact bounds_of_div_eq (unit_pos tv') hdvd hdiv
      · exact absurd hi (hcur pos)
    · rcases hwhere with ⟨tv', rfl, hin⟩ | ⟨hlong, rfl⟩
      · left
        refine ⟨tv', rfl, ?_⟩
        by_cases heq : tv' = tv
        · subst heq
          rw [Function.update_self, hnext]
          refine hin.succ fun hkey => hi ?_
          rw [slot, hkey]
        · rwa [Function.update_of_ne heq]
      · right
        refine ⟨hlong, ?_⟩
        simp [current, Ne.symm htv]
  obtain ⟨m', hloop, hsim, hempty, hsame, hindex⟩ :=
    moveLoop_spec hlt hat' htv (fun d _ _ tv' heq => (hslot d tv' heq).1)
      (Nat.le_succ _) rfl hT (by rw [hidx 0]; simp [Ne.symm htv]) hmoving
  refine ⟨{ m' with index := Function.update m'.index tv ((m'.index tv + 1) % 64) }, ?_, ?_, ?_, ?_⟩
  · simp only [moveTimers, hidx tv, hloop, Option.map_some]
  · refine (hsim.mono fun i x d hx hm => ?_).congr rfl rfl hsim.interval rfl
    unfold Moving at hm
    split_ifs at hm with hi
    · rw [hi, hempty] at hx
      cases hx
    · exact hm
  · exact ⟨hsame.jiffies, hsame.timerJiffies, hsame.running⟩
  · intro tv'
    have hw : width tv = 64 := by fin_cases tv <;> first | rfl | exact absurd rfl htv
    by_cases heq : tv' = tv
    · subst heq
      simp only [Function.update_self, hindex, hidx tv', hnext, hw, Nat.mod_add_mod]
    · simp only [Function.update_of_ne heq, hindex, hidx tv']

/-- The positions when the wheels `tvs` have been moved on. -/
def movedOn (pos : Fin 5 → ℕ) (T : ℕ) (tvs : List (Fin 5)) : Fin 5 → ℕ := fun tv =>
  if tv ∈ tvs then after (unit tv) T else pos tv

theorem movedOn_of_not_dvd (tv : Fin 5) (tvs : List (Fin 5))
    (hpos : ∀ tv' ∈ tvs, pos tv' = before (unit tv') T) (hnot : ∀ tv' ∈ tvs, ¬ unit tv' ∣ T) :
    movedOn pos T (tv :: tvs) = Function.update pos tv (after (unit tv) T) := by
  funext tv'
  by_cases heq : tv' = tv
  · subst heq
    simp [movedOn]
  · by_cases hmem : tv' ∈ tvs
    · simp [movedOn, hmem, heq, hpos tv' hmem, before_of_not_dvd (unit_pos tv') (hnot tv' hmem)]
    · simp [movedOn, hmem, heq]

/-- **The cascade**: the wheels whose unit divides the tick are moved on, from the smallest
unit up, and for the others nothing is to be done. -/
theorem moveAll_spec (hlt : T < 2 ^ 64) (tv : Fin 5) (tvs : List (Fin 5))
    (hchain : (tv :: tvs).IsChain fun a b => unit b = 64 * unit a)
    (hmul : (tv :: tvs).Pairwise fun a b => 64 * unit a ∣ unit b ∧ b ≠ a)
    (hzero : ∀ tv' ∈ tv :: tvs, tv' ≠ 0) (h : Sim (Where pos q) m q) (hT : m.timerJiffies = T)
    (hat : At T pos) (hidx : ∀ tv, m.index tv = pos tv % width tv) (hdvd : unit tv ∣ T)
    (hpos : ∀ tv' ∈ tv :: tvs, pos tv' = before (unit tv') T) :
    ∃ m', moveAll (tv :: tvs) m = some m' ∧ Sim (Where (movedOn pos T (tv :: tvs)) q) m' q ∧
      Same m m' ∧ ∀ tv', m'.index tv' = movedOn pos T (tv :: tvs) tv' % width tv' := by
  induction tvs generalizing tv m pos with
  | nil =>
      obtain ⟨m', hmove, hsim, hsame, hidx'⟩ := moveTimers_spec h hT hlt hat hidx
        (hzero tv List.mem_cons_self) hdvd (hpos tv List.mem_cons_self)
      rw [← movedOn_of_not_dvd tv [] (by simp) (by simp)] at hsim hidx'
      refine ⟨m', ?_, hsim, hsame, hidx'⟩
      simp [moveAll, hmove]
  | cons tv₁ tvs ih =>
      have htv := hzero tv List.mem_cons_self
      obtain ⟨hle, hmul'⟩ := List.pairwise_cons.mp hmul
      obtain ⟨hunit, hchain'⟩ := List.isChain_cons_cons.mp hchain
      have hpos' : ∀ tv' ∈ tv₁ :: tvs, pos tv' = before (unit tv') T :=
        fun tv' hmem => hpos tv' (List.mem_cons_of_mem _ hmem)
      obtain ⟨m₁, hmove, hsim, hsame, hidx'⟩ :=
        moveTimers_spec h hT hlt hat hidx htv hdvd (hpos tv List.mem_cons_self)
      have hindex : m₁.index tv = (T / unit tv + 1) % 64 := by
        have hw : width tv = 64 := by fin_cases tv <;> first | rfl | exact absurd rfl htv
        rw [hidx' tv, Function.update_self, hw, after]
      have hcarry : 64 * unit tv ∣ T ↔ T / unit tv % 64 = 0 := by
        rw [Nat.mul_comm, ← Nat.dvd_div_iff_mul_dvd hdvd, Nat.dvd_iff_mod_eq_zero]
      rw [moveAll, hmove]
      dsimp only
      split_ifs with hone
      · have hdvd₁ : unit tv₁ ∣ T := by rw [hunit, hcarry]; omega
        have hpos₁ : ∀ tv' ∈ tv₁ :: tvs,
            Function.update pos tv (after (unit tv) T) tv' = before (unit tv') T := by
          intro tv' hmem
          rw [Function.update_of_ne (hle tv' hmem).2, hpos' tv' hmem]
        obtain ⟨m₂, hall, hsim₂, hsame₂, hidx₂⟩ := ih tv₁ hchain' hmul'
          (fun tv' hmem => hzero tv' (List.mem_cons_of_mem _ hmem)) hsim
          (hsame.timerJiffies.trans hT) (hat.turn htv) hidx' hdvd₁ hpos₁
        have hmoved : movedOn (Function.update pos tv (after (unit tv) T)) T (tv₁ :: tvs) =
            movedOn pos T (tv :: tv₁ :: tvs) := by
          funext tv'
          by_cases heq : tv' = tv
          · subst heq
            simp [movedOn]
          · simp [movedOn, heq]
        rw [hmoved] at hsim₂ hidx₂
        exact ⟨m₂, hall, hsim₂, hsame.trans hsame₂, hidx₂⟩
      · have hnot : ∀ tv' ∈ tv₁ :: tvs, ¬ unit tv' ∣ T := by
          intro tv' hmem hdvd'
          have := hcarry.mp ((hle tv' hmem).1.trans hdvd')
          omega
        rw [movedOn_of_not_dvd tv (tv₁ :: tvs) hpos' hnot]
        exact ⟨m₁, rfl, hsim, hsame, hidx'⟩

/-! ## Ticks -/

/-- The positions before a tick. -/
def posBefore (T : ℕ) : Fin 5 → ℕ := fun tv => before (unit tv) T

/-- The positions while the list of a tick is run. -/
def posMid (T : ℕ) : Fin 5 → ℕ := fun tv => if tv = t1 then T else after (unit tv) T

/-- The manager and the deadlines agree, with the wheels at the given positions. -/
structure Wheels (pos : Fin 5 → ℕ) (m : TimerMgr) (q : Deadlines) : Prop where
  sim : Sim (Where pos q) m q
  index : ∀ tv, m.index tv = pos tv % width tv

theorem before_one (T : ℕ) : before 1 T = T := by simp [before]

theorem at_posBefore (T : ℕ) : At T (posBefore T) := ⟨before_one T, fun _ => .inl rfl⟩

theorem at_posMid (T : ℕ) : At T (posMid T) where
  zero := rfl
  turned tv := by
    by_cases h : tv = 0
    · subst h
      exact .inl (before_one T).symm
    · exact .inr (by simp [posMid, h])

theorem dvd_of_ne_zero (htv : tv ≠ 0) : 256 ∣ unit tv := by
  fin_cases tv <;> first | exact absurd rfl htv | decide

/-- Before the list of a tick is run, the wheels are where they have to be. -/
theorem checkMove_spec (h : Wheels (posBefore T) m q) (hT : m.timerJiffies = T) (hlt : T < 2 ^ 64) :
    ∃ m', checkMove m = some m' ∧ Wheels (posMid T) m' q ∧ Same m m' := by
  have hindex : m.index 0 = T % 256 := by rw [h.index 0]; simp only [posBefore, unit, width, before_one]
  unfold checkMove
  split_ifs with hzero
  · have hmoved : movedOn (posBefore T) T [1, 2, 3, 4] = posMid T := by
      funext tv
      fin_cases tv <;> simp [movedOn, posMid, posBefore, unit, before_one, t1]
    obtain ⟨m', hall, hsim, hsame, hidx⟩ := moveAll_spec hlt 1 [2, 3, 4]
      (by decide) (by decide) (by decide) h.sim hT (at_posBefore T) h.index
      (by simp only [unit]; omega) (fun _ _ => rfl)
    rw [hmoved] at hsim hidx
    exact ⟨m', hall, ⟨hsim, hidx⟩, hsame⟩
  · have hpos : posBefore T = posMid T := by
      funext tv
      by_cases htv : tv = 0
      · subst htv
        simp [posBefore, posMid, unit, before_one]
      · have hnot : ¬ unit tv ∣ T := fun hdvd => hzero (by
          have := (dvd_of_ne_zero htv).trans hdvd
          omega)
        simp [posBefore, posMid, htv, before_of_not_dvd (unit_pos tv) hnot]
    rw [hpos] at h
    exact ⟨m, rfl, h, .refl m⟩

/-- The timers in the list of the tick have their deadline in it, long ones apart. -/
theorem due_of_mem_current (h : Wheels (posMid T) m q) (hx : x ∈ m.slots (current (posMid T))) :
    ∃ d, q.due x = some d ∧ (q.Short x → d = T) := by
  obtain ⟨d, hd, -, -, hwhere⟩ := h.sim.placed _ x hx
  refine ⟨d, hd, fun hshort => ?_⟩
  rcases hwhere with ⟨tv, hslot, hin⟩ | ⟨hlong, -⟩
  · obtain ⟨rfl, hmod⟩ := list_injective (Nat.mod_lt _ (width_pos 0)) (Nat.mod_lt _ (width_pos tv)) hslot
    have hkey := hin.slot_eq_iff.mp hmod.symm
    simpa [unit, posMid] using hkey
  · exact absurd hshort hlong

/-- When the list of a tick is empty, the first wheel moves on. -/
theorem nextTick_spec (h : Wheels (posMid T) m q) (hempty : m.slots (current (posMid T)) = []) :
    Wheels (posBefore (T + 1)) (nextTick m) q := by
  have hpos : ∀ tv, tv ≠ 0 → posBefore (T + 1) tv = posMid T tv := by
    intro tv htv
    simp [posBefore, posMid, htv, before_succ (unit_pos tv)]
  have hpos0 : posBefore (T + 1) 0 = T + 1 := before_one _
  constructor
  · refine (h.sim.mono fun i x d hx hwhere => ?_).congr rfl rfl h.sim.interval rfl
    rcases hwhere with ⟨tv, rfl, hin⟩ | ⟨-, rfl⟩
    · left
      refine ⟨tv, rfl, ?_⟩
      by_cases htv : tv = 0
      · subst htv
        rw [hpos0]
        refine hin.succ fun hkey => ?_
        have hcur : slot 0 d = current (posMid T) := by rw [slot, hkey, current]
        rw [hcur, hempty] at hx
        cases hx
      · rwa [hpos tv htv]
    · rw [hempty] at hx
      cases hx
  · intro tv
    by_cases htv : tv = 0
    · subst htv
      rw [hpos0]
      simp only [nextTick, Function.update_self, h.index 0, width, posMid, if_true]
      omega
    · rw [hpos tv htv]
      simp only [nextTick, Function.update_of_ne htv, h.index tv]

/-! ## The simulation -/

/-- The ticks that are run in the jiffy `J`: tick 0 is run in the first clock step, together
with tick 1. -/
def InJiffy (T J : ℕ) : Prop := T = J ∨ (T = 0 ∧ J = 1)

/-- The manager and the machine of deadlines in corresponding states. -/
structure Refines (m : TimerMgr) (q : Deadlines) : Prop where
  now : m.jiffies = q.now
  running : m.running = q.running
  bound : m.jiffies + 1 < 2 ^ 64
  interval : ∀ x, q.interval x < 2 ^ 32
  later : ∀ x d, q.due x = some d → 1 ≤ d
  idle : m.running = false → (m.timerJiffies = m.jiffies + 1 ∨ m.timerJiffies = 0 ∧ m.jiffies = 0) ∧
    Wheels (posBefore m.timerJiffies) m q
  busy : m.running = true → InJiffy m.timerJiffies m.jiffies ∧ Wheels (posMid m.timerJiffies) m q

/-- A deadline on a wheel is not behind the tick. -/
theorem le_of_placed {d i : ℕ} (h : Placed (posBefore T) d i) : T ≤ d := by
  obtain ⟨tv, -, hin⟩ := h
  calc T ≤ before (unit tv) T * unit tv := le_before_mul (unit_pos tv) T
    _ ≤ d / unit tv * unit tv := Nat.mul_le_mul_right _ hin.1
    _ ≤ d := Nat.div_mul_le_self d (unit tv)

/-- What the manager knows in the middle of a clock step: the deadlines it has to keep, and
that its counters do not wrap. -/
structure Going (m : TimerMgr) (q : Deadlines) : Prop where
  now : m.jiffies = q.now
  bound : m.jiffies + 1 < 2 ^ 64
  interval : ∀ x, q.interval x < 2 ^ 32
  later : ∀ x d, q.due x = some d → 1 ≤ d

theorem Going.same (h : Going m q) (hs : m'.jiffies = m.jiffies) : Going m' q :=
  ⟨hs.trans h.now, by rw [hs]; exact h.bound, h.interval, h.later⟩

/-- The list of a tick is run: its first timer is called, or the next tick comes. -/
theorem runTimer_spec {rest : TimerMgr → Option (TimerMgr × Option ℕ)} (hg : Going m q)
    (htick : InJiffy m.timerJiffies m.jiffies) (h : Wheels (posMid m.timerJiffies) m q)
    (hrest : Going (nextTick m) q → (nextTick m).timerJiffies = m.timerJiffies + 1 →
      Wheels (posBefore (m.timerJiffies + 1)) (nextTick m) q →
      ∃ m' r q', progress (rest (nextTick m)) = some (m', r) ∧ Goes q r q' ∧ Refines m' q') :
    ∃ m' r q', progress (runTimer rest m) = some (m', r) ∧ Goes q r q' ∧ Refines m' q' := by
  have hslot : timerList 0 + m.index 0 = current (posMid m.timerJiffies) := by
    rw [h.index 0, current]
  unfold runTimer
  rw [hslot]
  cases hl : m.slots (current (posMid m.timerJiffies)) with
  | nil =>
      refine hrest (hg.same rfl) ?_ (nextTick_spec h hl)
      have := hg.bound
      unfold InJiffy at htick
      simp only [nextTick]
      omega
  | cons x l =>
      obtain ⟨d, hd, hshort⟩ := due_of_mem_current h (by rw [hl]; exact List.mem_cons_self)
      have hnow : q.Short x → d = q.now := by
        intro hs
        have := hshort hs
        have := hg.later x d hd
        have := hg.now
        unfold InJiffy at htick
        omega
      refine ⟨_, _, { q.disarm x with running := true }, by rw [progress], ?_, ?_⟩
      · have hfired := Goes.fired hd hnow
        rwa [← hg.now] at hfired
      · refine ⟨hg.now, rfl, hg.bound, hg.interval, ?_, by simp, fun _ => ⟨htick, ?_, h.index⟩⟩
        · intro y e he
          by_cases hyx : y = x
          · simp [hyx] at he
          · exact hg.later y e (by simpa [hyx] using he)
        · exact (h.sim.del x).congr rfl rfl h.sim.interval rfl

/-- A clock step runs the ticks up to its jiffy. -/
theorem runTimerList_spec (fuel : ℕ) (hg : Going m q)
    (hfuel : m.jiffies + 2 - m.timerJiffies ≤ fuel) (hle : m.timerJiffies ≤ m.jiffies + 1)
    (htick : m.timerJiffies ≤ m.jiffies → InJiffy m.timerJiffies m.jiffies)
    (h : Wheels (posBefore m.timerJiffies) m q) :
    ∃ m' r q', progress (runTimerList fuel m) = some (m', r) ∧ Goes q r q' ∧ Refines m' q' := by
  induction fuel generalizing m with
  | zero => omega
  | succ fuel ih =>
      unfold runTimerList
      split_ifs with hround
      · obtain ⟨m₁, hmove, hmid, hsame⟩ := checkMove_spec h rfl (by have := hg.bound; omega)
        rw [hmove]
        dsimp only
        rw [← hsame.timerJiffies] at hmid hfuel htick hround
        rw [← hsame.jiffies] at hfuel htick hround
        refine runTimer_spec (hg.same hsame.jiffies) (htick hround) hmid
          fun hg' hT hbefore => ih hg' ?_ ?_ ?_ (by rwa [hT])
        · rw [hT, show (nextTick m₁).jiffies = m₁.jiffies from rfl]
          omega
        · rw [hT, show (nextTick m₁).jiffies = m₁.jiffies from rfl]
          omega
        · rw [hT, show (nextTick m₁).jiffies = m₁.jiffies from rfl]
          have := htick hround
          unfold InJiffy at *
          omega
      · have hT : m.timerJiffies = m.jiffies + 1 := by omega
        refine ⟨{ m with running := false }, .idle, { q with running := false }, rfl, .idle ?_, ?_⟩
        · intro x d hd hshort
          obtain ⟨i, hi⟩ := h.sim.linked x d hd
          obtain ⟨e, he, -, -, hwhere⟩ := h.sim.placed i x hi
          rw [hd] at he
          cases he
          rcases hwhere with hplaced | ⟨hlong, -⟩
          · have := le_of_placed hplaced
            have := hg.now
            omega
          · exact absurd hshort hlong
        · refine ⟨hg.now, rfl, hg.bound, hg.interval, hg.later, fun _ => ⟨.inl hT, ?_, h.index⟩,
            by simp⟩
          exact h.sim.congr rfl rfl h.sim.interval rfl

/-- The wheels between two clock steps, or while the list of a tick is run. -/
def Phase (T J : ℕ) (pos : Fin 5 → ℕ) : Prop :=
  (pos = posBefore T ∧ (T = J + 1 ∨ T = 0 ∧ J = 0)) ∨ (pos = posMid T ∧ InJiffy T J)

/-- A call that leaves the wheels and the clock alone. -/
theorem Refines.call {q' : Deadlines} (h : Refines m q) (hsame : Same m m')
    (hindex : m'.index = m.index) (hnow : q'.now = q.now) (hrunning : q'.running = q.running)
    (hinterval : ∀ x, q'.interval x < 2 ^ 32) (hlater : ∀ x d, q'.due x = some d → 1 ≤ d)
    (hsim : ∀ pos, Phase m.timerJiffies m.jiffies pos → At m.timerJiffies pos → Wheels pos m q →
      Sim (Where pos q') m' q') : Refines m' q' where
  now := by rw [hsame.jiffies, hnow, h.now]
  running := by rw [hsame.running, hrunning, h.running]
  bound := by rw [hsame.jiffies]; exact h.bound
  interval := hinterval
  later := hlater
  idle hrun := by
    rw [hsame.jiffies, hsame.timerJiffies]
    obtain ⟨htick, hw⟩ := h.idle (hsame.running ▸ hrun)
    exact ⟨htick, hsim _ (.inl ⟨rfl, htick⟩) (at_posBefore _) hw, by rw [hindex]; exact hw.index⟩
  busy hrun := by
    rw [hsame.jiffies, hsame.timerJiffies]
    obtain ⟨htick, hw⟩ := h.busy (hsame.running ▸ hrun)
    exact ⟨htick, hsim _ (.inr ⟨rfl, htick⟩) (at_posMid _) hw, by rw [hindex]; exact hw.index⟩

theorem Refines.wheels (h : Refines m q) : ∃ pos, Wheels pos m q := by
  cases hrun : m.running with
  | false => exact ⟨_, (h.idle hrun).2⟩
  | true => exact ⟨_, (h.busy hrun).2⟩

theorem same_stop (m : TimerMgr) (x : ℕ) : Same m (stop m x) ∧ (stop m x).index = m.index := by
  unfold stop
  split_ifs <;> exact ⟨⟨rfl, rfl, rfl⟩, rfl⟩

theorem same_start (m : TimerMgr) (x : ℕ) :
    Same m (start m x).1 ∧ (start m x).1.index = m.index := by
  unfold start
  split_ifs <;> exact ⟨⟨rfl, rfl, rfl⟩, rfl⟩

theorem Refines.stop (h : Refines m q) (x : ℕ) : Refines (stop m x) (q.disarm x) := by
  refine h.call (same_stop m x).1 (same_stop m x).2 rfl rfl h.interval ?_
    fun pos _ _ hw => hw.sim.stop x
  intro y d hd
  by_cases hyx : y = x
  · simp [hyx] at hd
  · exact h.later y d (by simpa [hyx] using hd)

/-- The one start that goes wrong: before tick 0 is over, an interval of `2 ^ 31 - 1` ends
`2 ^ 31` ticks later, which `get_timer_list` takes for a time in the past. -/
def Overlong (m : TimerMgr) (x : ℕ) : Prop :=
  m.interval x = 2 ^ 31 - 1 ∧ m.jiffies = 1 ∧ m.timerJiffies = 0

theorem Refines.start (h : Refines m q) (hx : ¬ Overlong m x) :
    Refines (start m x).1 (q.arm x) := by
  have hk := h.interval x
  have hbound := h.bound
  refine h.call (same_start m x).1 (same_start m x).2 (by simp) (by simp) (by simpa using h.interval)
    ?_ ?_
  · intro y d hd
    by_cases hyx : y = x
    · subst hyx
      cases hq : q.startable y with
      | false =>
          rw [arm_of_not_startable hq] at hd
          exact h.later y d hd
      | true =>
          have hzero : q.interval y ≠ 0 := by
            simp only [startable, Bool.and_eq_true, decide_eq_true_eq] at hq
            exact hq.1
          simp only [arm, hq, if_true, Function.update_self, Option.some.injEq] at hd
          omega
    · exact h.later y d (by simpa [hyx] using hd)
  · intro pos hphase hat hw
    have hnow := h.now
    rw [Overlong, hw.sim.interval] at hx
    have hsim : Sim (Where pos q) (Timer.start m x).1 (q.arm x) := by
      refine start_sim hw.sim rfl ?_ hat (hw.index 0) h.now ?_ ?_ ?_
      · rcases hphase with ⟨-, hT⟩ | ⟨-, hT⟩
        · omega
        · unfold InJiffy at hT
          omega
      · intro hzero
        rcases hphase with ⟨-, hT⟩ | ⟨-, hT⟩
        · omega
        · unfold InJiffy at hT
          omega
      · rcases hphase with ⟨-, hT⟩ | ⟨rfl, hT | ⟨hT, hJ⟩⟩
        · omega
        · omega
        · by_cases hfar : q.now + q.interval x - m.timerJiffies < 2 ^ 32
          · exact .inl hfar
          · refine .inr ⟨by omega, ?_⟩
            rw [show q.now + q.interval x = 2 ^ 32 by omega, hT]
            simp [InWheel, posMid, unit, width, after, t1]
      · intro hshort
        unfold Short at hshort
        rcases hphase with ⟨-, hT⟩ | ⟨-, hT⟩
        · omega
        · unfold InJiffy at hT
          omega
    refine hsim.mono fun i y d _ hwhere => ?_
    simpa [Where, Short] using hwhere

/-- **What the callers of a manager have to keep to**: clock steps are not made from
callbacks, and fewer than `2 ^ 64 - 1` of them; only callbacks return; no start is
`Overlong`. -/
def Allowed (m : TimerMgr) : Input → Prop
  | .start x => ¬ Overlong m x
  | .restart x => ¬ Overlong m x
  | .stop _ => True
  | .setinterval _ _ => True
  | .steprun => m.running = false ∧ m.jiffies + 2 < 2 ^ 64
  | .ret => m.running = true

instance : (m : TimerMgr) → (c : Input) → Decidable (Allowed m c)
  | m, .start x => inferInstanceAs (Decidable (¬ (m.interval x = _ ∧ m.jiffies = _ ∧ m.timerJiffies = _)))
  | m, .restart x => inferInstanceAs (Decidable (¬ (m.interval x = _ ∧ m.jiffies = _ ∧ m.timerJiffies = _)))
  | _, .stop _ => isTrue trivial
  | _, .setinterval _ _ => isTrue trivial
  | m, .steprun => inferInstanceAs (Decidable (m.running = false ∧ m.jiffies + 2 < 2 ^ 64))
  | m, .ret => inferInstanceAs (Decidable (m.running = true))

variable (minInterval : ℕ+)

theorem jiffiesOf_lt (timelen : UInt32) : jiffiesOf minInterval timelen < 2 ^ 32 := by
  have hlen : timelen.toNat < 2 ^ 32 := timelen.toNat_lt
  have hpos : 0 < (minInterval : ℕ) := minInterval.pos
  unfold jiffiesOf
  rw [Nat.div_lt_iff_lt_mul hpos]
  omega

/-- The interval of a timer that does not wait is free to change. -/
theorem Refines.setInterval (h : Refines m q) {k : ℕ} (hx : q.due x = none) (hk : k < 2 ^ 32) :
    Refines { m with interval := Function.update m.interval x k }
      { q with interval := Function.update q.interval x k } := by
  refine h.call ⟨rfl, rfl, rfl⟩ rfl rfl rfl ?_ h.later fun pos _ _ hw => ?_
  · intro y
    by_cases hyx : y = x
    · simpa [hyx] using hk
    · simpa [hyx] using h.interval y
  · refine (hw.sim.mono fun i y d hy hwhere => ?_).congr rfl rfl ?_ rfl
    · have hyx : y ≠ x := fun heq => hw.sim.not_mem hx i (heq ▸ hy)
      simpa [Where, Short, hyx] using hwhere
    · simp [hw.sim.interval]

/-- **One step**: an allowed call succeeds, and the machine of deadlines can make it too. -/
theorem step_simulates (m : TimerMgr) (q : Deadlines) (c : Input) (h : Refines m q)
    (hc : Allowed m c) :
    ∃ m' r q', step minInterval m c = some (m', r) ∧ Step minInterval q c r q' ∧ Refines m' q' := by
  cases c with
  | start x =>
      obtain ⟨pos, hw⟩ := h.wheels
      exact ⟨_, _, _, rfl, start_snd hw.sim x ▸ .start x, h.start hc⟩
  | stop x => exact ⟨_, _, _, rfl, .stop x, h.stop x⟩
  | restart x =>
      refine ⟨_, _, _, rfl, .restart x, (h.stop x).start ?_⟩
      obtain ⟨hsame, -⟩ := same_stop m x
      have hint : (stop m x).interval = m.interval := by unfold stop; split_ifs <;> rfl
      have hx : ¬ Overlong m x := hc
      simpa only [Overlong, hsame.jiffies, hsame.timerJiffies, hint] using hx
  | setinterval x intv =>
      exact ⟨_, _, _, rfl, .setinterval x intv,
        (h.stop x).setInterval (disarm_due_self q x) (jiffiesOf_lt minInterval intv)⟩
  | steprun =>
      obtain ⟨hidle, hsteps⟩ := hc
      obtain ⟨htick, hw⟩ := h.idle hidle
      have hjiffies : (m.jiffies + 1) % 2 ^ 64 = m.jiffies + 1 := by omega
      obtain ⟨m', r, q', hrun, hgoes, href⟩ := runTimerList_spec
        (q := { q with now := q.now + 1 })
        (rounds { m with jiffies := m.jiffies + 1 }) (m := { m with jiffies := m.jiffies + 1 })
        ⟨by rw [← h.now], by simpa using hsteps, h.interval, h.later⟩ le_rfl
        (by simp only; omega) (by simp only [InJiffy]; omega)
        ⟨hw.sim.congr rfl rfl hw.sim.interval rfl, hw.index⟩
      refine ⟨m', r, q', ?_, .steprun (h.running ▸ hidle) hgoes, href⟩
      rw [step, if_neg (by simp [hidle]), hjiffies]
      exact hrun
  | ret =>
      obtain ⟨htick, hw⟩ := h.busy hc
      obtain ⟨m', r, q', hrun, hgoes, href⟩ := runTimer_spec
        ⟨h.now, h.bound, h.interval, h.later⟩ htick hw
        fun hg hT hbefore => runTimerList_spec (rounds (nextTick m)) hg le_rfl
          (by rw [hT]; unfold InJiffy at htick; simp only [nextTick]; omega)
          (by rw [hT]; unfold InJiffy at *; simp only [nextTick]; omega) (by rwa [hT])
      refine ⟨m', r, q', ?_, .ret (h.running ▸ hc) hgoes, href⟩
      rw [← hrun, step, if_pos (by exact hc)]

/-! ## Runs -/

/-- The deadlines of a new manager. -/
def Deadlines.new (minInterval : ℕ+) (timelen : ℕ → UInt32) : Deadlines where
  now := 0
  running := false
  due _ := none
  interval x := jiffiesOf minInterval (timelen x)

theorem refines_new (timelen : ℕ → UInt32) :
    Refines (TimerMgr.new minInterval timelen) (Deadlines.new minInterval timelen) where
  now := rfl
  running := rfl
  bound := by simp [TimerMgr.new]
  interval x := jiffiesOf_lt minInterval (timelen x)
  later x d hd := by cases hd
  idle _ := by
    refine ⟨.inr ⟨rfl, rfl⟩, ⟨rfl, ?_, ?_, ?_, ?_⟩, ?_⟩
    · intro i x hx
      cases hx
    · intro x d hd
      cases hd
    · intro i j x hx
      cases hx
    · exact fun i => List.nodup_nil
    · intro tv
      fin_cases tv <;> simp [TimerMgr.new, posBefore, before, unit, width]
  busy h := by cases h

/-- A call that starts a timer. -/
def Starts (x : ℕ) (c : Input) (r : Reply) : Prop := (c = .start x ∧ r = .started true) ∨ c = .restart x

theorem due_of_starts {minInterval : ℕ+} {q' : Deadlines} {c : Input} {r : Reply}
    (h : Step minInterval q c r q') (hx : Starts x c r) (hk : q.interval x ≠ 0) :
    q'.due x = some (q.now + q.interval x) ∧ q'.now = q.now ∧ q'.interval = q.interval := by
  rcases hx with ⟨rfl, rfl⟩ | rfl
  · generalize hr : Reply.started true = r at h
    cases h with
    | start x =>
        simp only [Reply.started.injEq] at hr
        simp [arm, ← hr]
  · cases h with
    | restart x =>
        have hs : (q.disarm x).startable x = true := by simp [startable, hk]
        simp [arm, hs]

/-- **A timer is called once, in the jiffy of its expiry.** In every run that keeps to
`Allowed`, take a start of a timer with an interval from 1 to `2 ^ 31 - 1`. The calls that
follow go through, and while none of them stops the timer or starts it anew, its callback is
made in the jiffy of its expiry and in no other, and by the end of the clock step of that
jiffy it has been made. -/
theorem timer_fires_once (minInterval : ℕ+) (timelen : ℕ → UInt32) (cs cs' : List Input)
    (c : Input) (x : ℕ) (m m₁ : TimerMgr) (rs : List Reply) (r : Reply)
    (hallowed : Guarded (step minInterval) Allowed (TimerMgr.new minInterval timelen)
      (cs ++ c :: cs'))
    (hrun : run (step minInterval) (TimerMgr.new minInterval timelen) cs = some (m, rs))
    (hstep : step minInterval m c = some (m₁, r)) (hx : Starts x c r)
    (hk : 1 ≤ m.interval x) (hk' : m.interval x < 2 ^ 31) :
    ∃ m' rs', run (step minInterval) m₁ cs' = some (m', rs') ∧
      (Untouched x cs' rs' →
        (fires x rs' = [] ∧ (m'.jiffies < m.jiffies + m.interval x ∨
          m'.jiffies = m.jiffies + m.interval x ∧ m'.running = true)) ∨
        (fires x rs' = [m.jiffies + m.interval x] ∧ m.jiffies + m.interval x ≤ m'.jiffies)) := by
  have hsim := run_simulates (step_simulates minInterval)
  obtain ⟨m₀, rs₀, q, hrun₀, -, href⟩ :=
    hsim cs _ _ (refines_new minInterval timelen) hallowed.append_left
  rw [hrun] at hrun₀
  cases hrun₀
  have hrest := hallowed.append_right hrun
  obtain ⟨m₁', r', q₁, hstep', hq₁, href₁⟩ := step_simulates minInterval m q c href hrest.1
  rw [hstep] at hstep'
  cases hstep'
  obtain ⟨m', rs', q', hrun', hruns, href'⟩ := hsim cs' m₁ q₁ href₁ (hrest.2 m₁ r hstep)
  obtain ⟨pos, hw⟩ := href.wheels
  rw [hw.sim.interval] at hk hk' ⊢
  obtain ⟨hdue, hnow, hinterval⟩ := due_of_starts hq₁ hx (by omega)
  refine ⟨m', rs', hrun', fun huntouched => ?_⟩
  rw [href.now, href'.now, href'.running]
  refine fires_once hruns huntouched ⟨hdue, ?_, .inl (by omega)⟩
  rw [Short, hinterval]
  exact hk'

theorem timer_fires_once_three : ∃ m m₁ m' rs',
    Guarded (step 1) Allowed (TimerMgr.new 1 fun _ => 3)
      ([] ++ .start 0 :: [.steprun, .steprun, .steprun, .ret]) ∧
    run (step 1) (TimerMgr.new 1 fun _ => 3) [] = some (m, []) ∧
    step 1 m (.start 0) = some (m₁, .started true) ∧
    run (step 1) m₁ [.steprun, .steprun, .steprun, .ret] = some (m', rs') ∧
    (Untouched 0 [.steprun, .steprun, .steprun, .ret] rs' →
      (fires 0 rs' = [] ∧ (m'.jiffies < m.jiffies + m.interval 0 ∨
        m'.jiffies = m.jiffies + m.interval 0 ∧ m'.running = true)) ∨
      (fires 0 rs' = [m.jiffies + m.interval 0] ∧ m.jiffies + m.interval 0 ≤ m'.jiffies)) := by
  have hguard : Guarded (step 1) Allowed (TimerMgr.new 1 fun _ => 3)
      ([] ++ .start 0 :: [.steprun, .steprun, .steprun, .ret]) := by
    decide +kernel
  have hreply : (start (TimerMgr.new 1 fun _ => 3) 0).2 = true := by decide +kernel
  have hstep : step 1 (TimerMgr.new 1 fun _ => 3) (.start 0) =
      some ((start (TimerMgr.new 1 fun _ => 3) 0).1, .started true) := by
    rw [step, hreply]
  obtain ⟨m', rs', hrun, hfires⟩ := timer_fires_once 1 (fun _ => 3) []
    [.steprun, .steprun, .steprun, .ret] (.start 0) 0 _ _ [] (.started true) hguard rfl hstep
    (.inl ⟨rfl, rfl⟩) (by decide +kernel) (by decide +kernel)
  exact ⟨_, _, m', rs', hguard, rfl, hstep, hrun, hfires⟩

/-- Timer 0 has the interval `2 ^ 31`, timer 1 one less. -/
def longest (x : ℕ) : UInt32 := if x = 0 then 2147483648 else 2147483647

/-- Started from the callback of timer 0, which is made in the very first tick, timer 1 is
called in jiffy 1, although it expires in jiffy `2 ^ 31`. -/
theorem timer_fires_at_once : ∃ m m₁ m' rs rs',
    run (step 1) (TimerMgr.new 1 longest) [.start 0, .steprun] = some (m, rs) ∧
    step 1 m (.start 1) = some (m₁, .started true) ∧ m.interval 1 = 2 ^ 31 - 1 ∧
    m.jiffies + m.interval 1 = 2 ^ 31 ∧
    run (step 1) m₁ [.ret] = some (m', rs') ∧ Untouched 1 [.ret] rs' ∧
    fires 1 rs' = [1] := by
  have hall : (run (step 1) (TimerMgr.new 1 longest) [.start 0, .steprun]).any (fun p =>
      (step 1 p.1 (.start 1)).any fun p₁ => p₁.2 == .started true && p.1.interval 1 == 2 ^ 31 - 1 &&
        p.1.jiffies == 1 && (run (step 1) p₁.1 [.ret]).any fun p' => p'.2 == [.fired 1 1]) =
      true := by
    decide +kernel
  obtain ⟨⟨m, rs⟩, hrun, hm⟩ := exists_of_any hall
  obtain ⟨⟨m₁, r⟩, hstep, hm₁⟩ := exists_of_any hm
  simp only [Bool.and_eq_true, beq_iff_eq] at hm₁
  obtain ⟨⟨⟨hr, hk⟩, hj⟩, hrest⟩ := hm₁
  obtain ⟨⟨m', rs'⟩, hrun', hrs'⟩ := exists_of_any hrest
  have hrs' : rs' = [.fired 1 1] := beq_iff_eq.mp hrs'
  refine ⟨m, m₁, m', rs, rs', hrun, by rw [hstep, hr], hk, by omega, hrun', ?_, ?_⟩
  · simp [Untouched, Touches, hrs']
  · simp [fires, hrs']

end V2I.Timer
