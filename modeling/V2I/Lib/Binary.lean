import Mathlib.Data.Int.Log
import Mathlib.Data.Rat.Floor

/-!
# V2I.Lib.Binary

Binary floating point: the numbers of `p` significant bits whose unit is at least
`2 ^ emin`, and rounding to the nearest of them, ties to even. There is no greatest number, and
no NaN: what is said here is said of computations that stay within the range of the format.

* `Rounding` — what a program may rely on when its `+`, `-` and `*` round;
* `Binary64` — the numbers of `double`, an instance; `single` rounds to a `float`.
-/

namespace V2I

/-- Arithmetic that rounds, in a linear order. -/
class Rounding (K : Type*) extends Zero K, Add K, Sub K, Mul K, NatCast K, LinearOrder K where
  /-- the value of a literal -/
  ofRat : ℚ → K
  /-- the conversion to `float` and back -/
  single : K → K
  add_zero : ∀ x : K, x + 0 = x
  sub_zero : ∀ x : K, x - 0 = x
  sub_self : ∀ x : K, x - x = 0
  mul_zero : ∀ x : K, x * 0 = 0
  single_zero : single 0 = 0
  sub_nonneg : ∀ {x y : K}, y ≤ x → 0 ≤ x - y
  sub_nonpos : ∀ {x y : K}, x ≤ y → x - y ≤ 0
  sub_le : ∀ {x y : K}, 0 ≤ y → y ≤ x → x - y ≤ x
  natCast_pos : ∀ {n : ℕ}, 0 < n → (0 : K) < n

namespace Binary

/-- The nearest integer, of two the even one. -/
def roundEven (q : ℚ) : ℤ :=
  if q - ⌊q⌋ < 1 / 2 then ⌊q⌋
  else if 1 / 2 < q - ⌊q⌋ then ⌊q⌋ + 1
  else if ⌊q⌋ % 2 = 0 then ⌊q⌋
  else ⌊q⌋ + 1

theorem roundEven_intCast (n : ℤ) : roundEven n = n := by
  simp [roundEven]

/-- Rounding does not pass an integer. -/
theorem roundEven_le {q : ℚ} {n : ℤ} (h : q ≤ n) : roundEven q ≤ n := by
  have hfloor : ⌊q⌋ ≤ n := by exact_mod_cast (Int.floor_le q).trans h
  rcases hfloor.lt_or_eq with hlt | heq
  · unfold roundEven
    split_ifs <;> omega
  · obtain rfl : q = n := le_antisymm h (heq ▸ Int.floor_le q)
    exact (roundEven_intCast n).le

theorem le_roundEven {q : ℚ} {n : ℤ} (h : n ≤ q) : n ≤ roundEven q := by
  have hfloor : n ≤ ⌊q⌋ := Int.le_floor.mpr h
  unfold roundEven
  split_ifs <;> omega

variable (p : ℕ) (emin : ℤ)

/-- The exponent of the last place of `p`. -/
def exponent (q : ℚ) : ℤ := max (Int.log 2 |q| + 1 - p) emin

/-- Rounding to `p` bits. -/
def round (q : ℚ) : ℚ := roundEven (q / 2 ^ exponent p emin q) * 2 ^ exponent p emin q

variable {p emin} {q x : ℚ}

theorem two_zpow_pos (j : ℤ) : (0 : ℚ) < 2 ^ j := zpow_pos (by norm_num) j

@[simp] theorem round_zero : round p emin 0 = 0 := by
  have h : roundEven 0 = 0 := by exact_mod_cast roundEven_intCast 0
  rw [round, zero_div, h, Int.cast_zero, zero_mul]

theorem round_nonneg (h : 0 ≤ q) : 0 ≤ round p emin q := by
  have hdiv : ((0 : ℤ) : ℚ) ≤ q / 2 ^ exponent p emin q := by
    rw [Int.cast_zero]
    exact div_nonneg h (two_zpow_pos _).le
  exact mul_nonneg (by exact_mod_cast le_roundEven hdiv) (two_zpow_pos _).le

theorem round_nonpos (h : q ≤ 0) : round p emin q ≤ 0 := by
  have hdiv : q / 2 ^ exponent p emin q ≤ ((0 : ℤ) : ℚ) := by
    rw [Int.cast_zero]
    exact div_nonpos_of_nonpos_of_nonneg h (two_zpow_pos _).le
  exact mul_nonpos_of_nonpos_of_nonneg (by exact_mod_cast roundEven_le hdiv)
    (two_zpow_pos _).le

theorem round_pos (hp : 0 < p) (h : 2 ^ emin ≤ q) : 0 < round p emin q := by
  have hpos : 0 < q := (two_zpow_pos emin).trans_le h
  have hlog : emin ≤ Int.log 2 q :=
    (Int.zpow_le_iff_le_log (by decide) hpos).mp (by exact_mod_cast h)
  have hdiv : ((1 : ℤ) : ℚ) ≤ q / 2 ^ exponent p emin q := by
    rw [Int.cast_one, one_le_div (two_zpow_pos _), exponent, abs_of_pos hpos]
    have hle : max (Int.log 2 q + 1 - p) emin ≤ Int.log 2 q := by omega
    refine (zpow_le_zpow_right₀ (by norm_num) hle).trans ?_
    exact_mod_cast Int.zpow_log_le_self (b := 2) (by decide) hpos
  exact mul_pos (by exact_mod_cast le_roundEven hdiv) (two_zpow_pos _)

/-- A multiple of the unit is not rounded. -/
theorem round_eq_self {r : ℤ} {j : ℤ} (hj : exponent p emin q ≤ j) (hq : q = r * 2 ^ j) :
    round p emin q = q := by
  have hint : q / 2 ^ exponent p emin q =
      ((r * 2 ^ (j - exponent p emin q).toNat : ℤ) : ℚ) := by
    rw [div_eq_iff (two_zpow_pos _).ne']
    push_cast
    rw [← zpow_natCast, Int.toNat_of_nonneg (by omega), mul_assoc,
      ← zpow_add₀ (by norm_num : (2 : ℚ) ≠ 0)]
    rw [sub_add_cancel]
    exact hq
  rw [round, hint, roundEven_intCast, ← hint, div_mul_cancel₀ _ (two_zpow_pos _).ne']

/-- **What has few enough bits** is not rounded. -/
theorem round_dyadic (hp : 0 < p) {r : ℤ} (hr : |r| ≤ 2 ^ p) {j : ℤ} (hj : emin ≤ j) :
    round p emin (r * 2 ^ j) = r * 2 ^ j := by
  by_cases h0 : r = 0
  · simp [h0]
  have habs : |(r : ℚ) * 2 ^ j| = |r| * 2 ^ j := by
    rw [abs_mul, abs_of_pos (two_zpow_pos j), Int.cast_abs]
  have hpos : (0 : ℚ) < |(r : ℚ) * 2 ^ j| := by
    rw [abs_pos]
    exact mul_ne_zero (by exact_mod_cast h0) (two_zpow_pos j).ne'
  rcases hr.lt_or_eq with hlt | heq
  · refine round_eq_self (max_le ?_ hj) rfl
    have hlog : Int.log 2 |(r : ℚ) * 2 ^ j| < p + j := by
      rw [← Int.lt_zpow_iff_log_lt (by decide) hpos, habs, Nat.cast_ofNat,
        zpow_add₀ (by norm_num), zpow_natCast]
      refine mul_lt_mul_of_pos_right ?_ (two_zpow_pos j)
      exact_mod_cast hlt
    omega
  · -- a power of two, with a bit to spare
    have hlog : Int.log 2 |(r : ℚ) * 2 ^ j| = p + j := by
      have hcast : |(r : ℚ) * 2 ^ j| = ((2 : ℕ) : ℚ) ^ ((p : ℤ) + j) := by
        rw [habs, heq, Nat.cast_ofNat, zpow_add₀ (by norm_num), zpow_natCast]
        push_cast
        rfl
      rw [hcast, Int.log_zpow (by decide)]
    obtain ⟨s, hs⟩ : ∃ s : ℤ, r = s * 2 := by
      rcases abs_choice r with h | h <;> rw [h] at heq
      · exact ⟨2 ^ (p - 1), by rw [heq, ← pow_succ]; congr 1; omega⟩
      · exact ⟨-2 ^ (p - 1), by rw [neg_mul, ← pow_succ, Nat.sub_add_cancel hp, ← heq, neg_neg]⟩
    refine round_eq_self (r := s) (j := j + 1) (max_le (by omega) (by omega)) ?_
    rw [hs, zpow_add_one₀ (by norm_num)]
    push_cast
    ring

/-- What rounding gives has few enough bits. -/
theorem exists_dyadic (p : ℕ) (emin : ℤ) (q : ℚ) :
    ∃ r j : ℤ, round p emin q = r * 2 ^ j ∧ |r| ≤ 2 ^ p ∧ emin ≤ j := by
  refine ⟨_, exponent p emin q, rfl, ?_, le_max_right _ _⟩
  have hlt : |q| < 2 ^ ((p : ℤ) + exponent p emin q) := by
    have hlog := Int.lt_zpow_succ_log_self (R := ℚ) (b := 2) (by decide) |q|
    refine hlog.trans_le ?_
    rw [Nat.cast_ofNat]
    refine zpow_le_zpow_right₀ (by norm_num) ?_
    have hmax : Int.log 2 |q| + 1 - p ≤ exponent p emin q := le_max_left _ _
    omega
  rw [zpow_add₀ (by norm_num), zpow_natCast, ← div_lt_iff₀ (two_zpow_pos _)] at hlt
  have hdiv : |q / 2 ^ exponent p emin q| < 2 ^ p := by
    rwa [abs_div, abs_of_pos (two_zpow_pos _)]
  obtain ⟨hlower, hupper⟩ := abs_lt.mp hdiv
  refine abs_le.mpr ⟨le_roundEven ?_, roundEven_le ?_⟩
  · push_cast
    exact hlower.le
  · push_cast
    exact hupper.le

theorem round_round (hp : 0 < p) (q : ℚ) : round p emin (round p emin q) = round p emin q := by
  obtain ⟨r, j, heq, hr, hj⟩ := exists_dyadic p emin q
  rw [heq]
  exact round_dyadic hp hr hj

/-- Rounding does not pass a greater number of the format. -/
theorem round_le (hx : round p emin x = x) (hq : 0 ≤ q) (hle : q ≤ x) : round p emin q ≤ x := by
  rcases hq.eq_or_lt with rfl | hpos
  · rwa [round_zero]
  have hexp : exponent p emin q ≤ exponent p emin x := by
    refine max_le_max_right _ ?_
    have hlog : Int.log 2 |q| ≤ Int.log 2 |x| := by
      rw [abs_of_pos hpos, abs_of_pos (hpos.trans_le hle)]
      exact Int.log_mono_right hpos hle
    omega
  -- the greater number is a multiple of the unit
  obtain ⟨n, hn⟩ : ∃ n : ℤ, x = n * 2 ^ exponent p emin q := by
    refine ⟨roundEven (x / 2 ^ exponent p emin x) *
      2 ^ (exponent p emin x - exponent p emin q).toNat, ?_⟩
    push_cast
    rw [← zpow_natCast, Int.toNat_of_nonneg (by omega), mul_assoc,
      ← zpow_add₀ (by norm_num : (2 : ℚ) ≠ 0), sub_add_cancel]
    exact hx.symm
  have hdiv : q / 2 ^ exponent p emin q ≤ n := by
    rw [div_le_iff₀ (two_zpow_pos _), ← hn]
    exact hle
  rw [round, hn]
  exact mul_le_mul_of_nonneg_right (by exact_mod_cast roundEven_le hdiv) (two_zpow_pos _).le

end Binary

open Binary

/-- The numbers of `double`. -/
def Binary64 : Type := { x : ℚ // round 53 (-1074) x = x }

namespace Binary64

instance : LinearOrder Binary64 :=
  inferInstanceAs (LinearOrder { x : ℚ // round 53 (-1074) x = x })

/-- The nearest number. -/
def ofRat (q : ℚ) : Binary64 := ⟨round 53 (-1074) q, round_round (by decide) q⟩

/-- The nearest number of `float`. -/
def single (x : Binary64) : Binary64 := ⟨round 24 (-149) x.1, by
  obtain ⟨r, j, heq, hr, hj⟩ := exists_dyadic 24 (-149) x.1
  rw [heq]
  exact round_dyadic (by decide) (hr.trans (by decide)) (by omega)⟩

theorem ofRat_val (x : Binary64) : ofRat x.1 = x := Subtype.ext x.2

theorem ofRat_nonneg {q : ℚ} (h : 0 ≤ q) : ofRat 0 ≤ ofRat q := by
  change round 53 (-1074) 0 ≤ round 53 (-1074) q
  rw [round_zero]
  exact round_nonneg h

theorem ofRat_nonpos {q : ℚ} (h : q ≤ 0) : ofRat q ≤ ofRat 0 := by
  change round 53 (-1074) q ≤ round 53 (-1074) 0
  rw [round_zero]
  exact round_nonpos h

theorem val_zero : (ofRat 0).1 = 0 := round_zero

instance : Rounding Binary64 where
  zero := ofRat 0
  add x y := ofRat (x.1 + y.1)
  sub x y := ofRat (x.1 - y.1)
  mul x y := ofRat (x.1 * y.1)
  natCast n := ofRat n
  ofRat := ofRat
  single := single
  add_zero x := by
    change ofRat (x.1 + (ofRat 0).1) = x
    rw [val_zero, add_zero, ofRat_val]
  sub_zero x := by
    change ofRat (x.1 - (ofRat 0).1) = x
    rw [val_zero, sub_zero, ofRat_val]
  sub_self x := congrArg ofRat (sub_self x.1)
  mul_zero x := by
    change ofRat (x.1 * (ofRat 0).1) = ofRat 0
    rw [val_zero, mul_zero]
  single_zero := Subtype.ext (by
    change round 24 (-149) (ofRat 0).1 = (ofRat 0).1
    rw [val_zero, Binary.round_zero])
  sub_nonneg h := ofRat_nonneg (sub_nonneg.mpr h)
  sub_nonpos h := ofRat_nonpos (sub_nonpos.mpr h)
  sub_le := by
    intro x y h0 hle
    have h0 : (ofRat 0).1 ≤ y.1 := h0
    rw [val_zero] at h0
    exact round_le x.2 (sub_nonneg.mpr hle) (sub_le_self _ h0)
  natCast_pos := by
    intro n hn
    have h1 : (1 : ℚ) ≤ n := by exact_mod_cast hn
    change round 53 (-1074) 0 < round 53 (-1074) n
    rw [Binary.round_zero]
    exact round_pos (by decide) ((zpow_le_one_of_nonpos₀ (by norm_num) (by decide)).trans h1)

end Binary64

end V2I
