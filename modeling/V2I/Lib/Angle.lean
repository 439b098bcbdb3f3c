import Mathlib.Algebra.Group.Defs

/-!
# V2I.Lib.Angle

An angle brought into one turn, by `fmod` and a test for a negative result, over any
arithmetic: exact numbers and machine numbers alike.
-/

namespace V2I.Angle

variable {F : Type} [Add F] [Sub F]

/-- The angle in the turn from `-pi` on. -/
def normalize (fmod : F → F → F) (neg : F → Bool) (pi twoPi angle : F) : F :=
  let a := fmod (angle + pi) twoPi
  (if neg a then a + twoPi else a) - pi

end V2I.Angle
