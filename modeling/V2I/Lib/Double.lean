import Mathlib.Data.Rat.Floor

/-!
# V2I.Lib.Double

The operations of C's `double` that a program may use, without any law: what is proved
over an arbitrary instance holds of the machine's arithmetic with its rounding and its
special values. Literals and integers enter through `ofRat`.
-/

namespace V2I

/-- A type of numbers with the operations of `double` and `<math.h>`. -/
class Double (F : Type) extends Add F, Sub F, Mul F, Div F, Neg F where
  /-- the value of a literal or of a converted integer -/
  ofRat : ℚ → F
  lt : F → F → Bool
  eq : F → F → Bool
  isnan : F → Bool
  sqrt : F → F
  cos : F → F
  sin : F → F
  fabs : F → F
  fmod : F → F → F
  /-- `M_PI` -/
  pi : F
  /-- rounding towards zero, which a conversion to an integer type does -/
  toInt : F → ℤ

namespace Double

variable {F : Type} [Double F]

/-- The value of an integer. -/
def ofInt (n : ℤ) : F := ofRat n

/-- Rounding towards zero. -/
def truncate (x : ℚ) : ℤ := if x < 0 then ⌈x⌉ else ⌊x⌋

/-- Exact arithmetic for concrete runs; the irrational functions are approximated. -/
instance : Double ℚ where
  ofRat := id
  lt x y := x < y
  eq x y := x = y
  isnan _ := false
  sqrt x := (Nat.sqrt (x.num.toNat * x.den) : ℕ) / (x.den : ℚ)
  cos x := 1 - x ^ 2 / 2 + x ^ 4 / 24 - x ^ 6 / 720
  sin x := x - x ^ 3 / 6 + x ^ 5 / 120 - x ^ 7 / 5040
  fabs x := |x|
  fmod x y := x - y * truncate (x / y)
  pi := 3141592653589793 / 10 ^ 15
  toInt := truncate

/-- Numbers whose four operations are exact: each stands for a rational. -/
class Exact (F : Type) [Double F] where
  val : F → ℚ
  val_ofRat : ∀ q : ℚ, val (ofRat q) = q
  val_add : ∀ x y : F, val (x + y) = val x + val y
  val_sub : ∀ x y : F, val (x - y) = val x - val y
  val_mul : ∀ x y : F, val (x * y) = val x * val y
  val_div : ∀ x y : F, val (x / y) = val x / val y

namespace Exact

attribute [simp] val_ofRat val_add val_sub val_mul val_div

@[simp] theorem val_ofInt {F : Type} [Double F] [Exact F] (n : ℤ) :
    val (Double.ofInt n : F) = n := val_ofRat _

instance : Exact ℚ where
  val := id
  val_ofRat _ := rfl
  val_add _ _ := rfl
  val_sub _ _ := rfl
  val_mul _ _ := rfl
  val_div _ _ := rfl

end Exact

end Double

end V2I
