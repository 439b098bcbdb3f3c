import Mathlib.Algebra.Order.Ring.Nat
import Mathlib.Data.Nat.ModEq

/-!
# V2I.Lib.Wheel

The arithmetic of timing wheels. A wheel of `w` slots at the position `n` holds the keys
`n, …, n + w - 1`, the key `q` in the slot `q % w`; the position itself is only kept modulo
`w`. A wheel for units of `u` ticks has the key `e / u` for an expiry `e`, and its slot for
the tick `t` is emptied in that tick when `u ∣ t`: its position is `before u t` until then
and `after u t` from then on.
-/

namespace V2I.Wheel

/-- The keys a wheel holds. -/
def InWheel (n w q : ℕ) : Prop := n ≤ q ∧ q < n + w

/-- The slot of the position holds no other key. -/
theorem InWheel.slot_eq_iff {n w q : ℕ} (h : InWheel n w q) : q % w = n % w ↔ q = n := by
  obtain ⟨k, rfl⟩ := Nat.exists_eq_add_of_le h.1
  have hk : k < w := by have := h.2; omega
  constructor
  · intro heq
    have hmod : Nat.ModEq w (n + k) (n + 0) := heq
    have hk0 := Nat.ModEq.add_left_cancel' n hmod
    rw [Nat.ModEq, Nat.mod_eq_of_lt hk, Nat.zero_mod] at hk0
    simp [hk0]
  · intro heq
    rw [heq]

/-- A wheel moves on when no key is left at its position. -/
theorem InWheel.succ {n w q : ℕ} (h : InWheel n w q) (hne : q ≠ n) : InWheel (n + 1) w q := by
  unfold InWheel at *
  omega

/-- The position of a wheel in the tick `t`, its slot for that tick not yet emptied. -/
def before (u t : ℕ) : ℕ := (t + (u - 1)) / u

/-- The position of a wheel in the tick `t`, its slot for that tick emptied. -/
def after (u t : ℕ) : ℕ := t / u + 1

variable {u : ℕ}

theorem before_succ (hu : 0 < u) (t : ℕ) : before u (t + 1) = after u t := by
  unfold before after
  rw [show t + 1 + (u - 1) = t + u by omega, Nat.add_div_right t hu]

variable {t : ℕ}

theorem before_of_dvd (hu : 0 < u) (h : u ∣ t) : before u t = t / u := by
  obtain ⟨k, rfl⟩ := h
  unfold before
  rw [Nat.mul_add_div hu, Nat.div_eq_of_lt (show u - 1 < u by omega), Nat.mul_div_cancel_left k hu,
    Nat.add_zero]

theorem before_of_not_dvd (hu : 0 < u) (h : ¬ u ∣ t) : before u t = after u t := by
  have hmod : 0 < t % u := Nat.pos_of_ne_zero fun h0 => h (Nat.dvd_of_mod_eq_zero h0)
  have ht := Nat.div_add_mod t u
  unfold before after
  rw [show t + (u - 1) = u * (t / u + 1) + (t % u - 1) by rw [Nat.mul_add]; omega,
    Nat.mul_add_div hu, Nat.div_eq_of_lt (show t % u - 1 < u by have := Nat.mod_lt t hu; omega),
    Nat.add_zero]

theorem le_before_mul (hu : 0 < u) (t : ℕ) : t ≤ before u t * u := by
  unfold before
  have := Nat.lt_div_mul_add (a := t + (u - 1)) hu
  omega

/-- An expiry in `[t + u, t + w * u)` fits into the wheel, before and after the tick. -/
theorem inWheel_of_le {w e : ℕ} (hu : 0 < u) (h : t + u ≤ e) (h' : e < t + w * u) :
    InWheel (before u t) w (e / u) ∧ InWheel (after u t) w (e / u) := by
  have hle : after u t ≤ e / u := by
    unfold after
    rw [← Nat.add_div_right t hu]
    exact Nat.div_le_div_right h
  have hbefore : before u t ≤ after u t := by
    by_cases hd : u ∣ t
    · rw [before_of_dvd hu hd]
      exact Nat.le_succ _
    · exact (before_of_not_dvd hu hd).le
  have hlt : e / u < before u t + w := by
    rw [Nat.div_lt_iff_lt_mul hu, Nat.add_mul]
    have := le_before_mul hu t
    omega
  unfold InWheel
  omega

/-- The expiries with the key of the tick `t` are less than a unit ahead. -/
theorem bounds_of_div_eq {e : ℕ} (hu : 0 < u) (hd : u ∣ t) (h : e / u = t / u) :
    t ≤ e ∧ e < t + u := by
  obtain ⟨k, rfl⟩ := hd
  rw [Nat.mul_div_cancel_left k hu] at h
  have he := Nat.div_add_mod e u
  have := Nat.mod_lt e hu
  rw [h] at he
  omega

end V2I.Wheel
