import V2I.Hmm.HmmLoc

/-!
# V2I.Hmm.Decoder

The Viterbi decoder over one fixed list of states, which the source has three times:
`HMM::viterbiAlgorithm` (`modules/HMM/hmm.cpp`), `HMMLoc::viterbiAlgorithmHDMap` and
`HMMLoc::viterbiAlgorithm` over the curves of a map (`modules/HMM/hmm_loc.cpp`). The last one
takes the final maximum over another number of states than the rest, so that number is a
parameter. A read outside a vector or a matrix has no defined result: `none`.
-/

namespace V2I.Hmm

open Viterbi List

variable {K : Type} {ω : Type*} [CommSemiring K] [LinearOrder K]

section Decode

variable (initial : ℕ → Option K) (transition : ℕ → ℕ → Option K) (emission : ℕ → ω → Option K)

/-- `delta(0, s)` -/
def initialProb (o : ω) (s : ℕ) : Option K := do
  let prob ← initial s
  let e ← emission s o
  some (prob * e)

/-- `delta(t - 1, s_prev) * transitional_prob * EmissionProbability(...)` -/
def stepProb (delta : List K) (o : ω) (s sPrev : ℕ) : Option K := do
  let d ← delta[sPrev]?
  let transitionalProb ← transition sPrev s
  let e ← emission s o
  some (d * transitionalProb * e)

/-- The recursion over the later observations: all rows of `psi`, and the last one of
`delta`. -/
def recursion (numStates : ℕ) : List K → List ω → Option (List (List ℕ) × List K)
  | delta, [] => some ([], delta)
  | delta, o :: os => do
      let cells ← (List.range numStates).mapM fun s =>
        argmax numStates (stepProb transition emission delta o s)
      let (psis, last) ← recursion numStates (cells.map Prod.fst) os
      some (cells.map Prod.snd :: psis, last)

/-- The decoder, as a list of state numbers. Without observations there is no
`best_path[T - 1]`. -/
def decode (numStates finalStates : ℕ) : List ω → Option (List ℕ)
  | [] => none
  | o :: os => do
      let delta ← (List.range numStates).mapM (initialProb initial emission o)
      let (psis, last) ← recursion transition emission numStates delta os
      let (_, bestFinalState) ← argmax finalStates fun s => last[s]?
      HmmLoc.backtrack bestFinalState psis

end Decode

/-! ## The functions of the source -/

/-- The parameters of an `HMM`: vectors and matrices of its sizes. -/
structure HMM (K : Type) where
  numStates : ℕ
  numObservations : ℕ
  transitionMatrix : List (List K)
  initialProbs : List K
  emissionMatrix : List (List K)
  transition_rows : transitionMatrix.length = numStates
  transition_cols : ∀ row ∈ transitionMatrix, row.length = numStates
  initial_rows : initialProbs.length = numStates
  emission_rows : emissionMatrix.length = numStates
  emission_cols : ∀ row ∈ emissionMatrix, row.length = numObservations

/-- `matrix(i, j)` -/
def coeff (matrix : List (List K)) (i j : ℕ) : Option K := do
  let row ← matrix[i]?
  row[j]?

/-- `HMM::viterbiAlgorithm(observations)` -/
def HMM.viterbiAlgorithm (h : HMM K) (observations : List ℕ) : Option (List ℕ) :=
  decode (fun s => h.initialProbs[s]?) (coeff h.transitionMatrix) (coeff h.emissionMatrix)
    h.numStates h.numStates observations

/-- `HMMLoc::viterbiAlgorithmHDMap(observations)` -/
def viterbiAlgorithmHDMap (emission : ℕ → Point ℚ → ℚ≥0) (initialRange : ℚ) (m : Hdmap.HdmapImpl)
    (observations : List (Point ℚ)) : Option (List ℕ) := do
  let lanes := m.getLanesNearTrajectory observations initialRange
  let numStates := lanes.length
  let transitionMatrix := m.calculateTransitionalProbability lanes lanes
  let bestPath ← decode (fun s => (HmmLoc.initialProbs numStates)[s]?) (coeff transitionMatrix)
    (fun s pt => (lanes[s]?).map (emission · pt)) numStates numStates observations
  bestPath.mapM fun idx => lanes[idx]?

/-! ## Products along a path -/

section Product

variable (transition : ℕ → ℕ → K) (emission : ℕ → ω → K)

/-- The product of `x` with the transition and emission values of a path that comes from
state `s`. -/
def stepProduct : K → ℕ → List ω → List ℕ → K
  | x, _, [], [] => x
  | x, s, o :: os, s' :: path => stepProduct (x * transition s s' * emission s' o) s' os path
  | _, _, _, _ => 0

/-- The product of the initial, transition and emission values of a path. -/
def product (initial : ℕ → K) : List ω → List ℕ → K
  | o :: os, s :: path => stepProduct transition emission (initial s * emission s o) s os path
  | _, _ => 0

/-- One state out of `n` for every observation. -/
def IsPath (n : ℕ) (observations : List ω) (path : List ℕ) : Prop :=
  path.length = observations.length ∧ ∀ s ∈ path, s < n

/-- A path with the largest product. -/
def OptimalPath (n : ℕ) (initial : ℕ → K) (observations : List ω) (path : List ℕ) : Prop :=
  IsPath n observations path ∧ ∀ path', IsPath n observations path' →
    product transition emission initial observations path' ≤
      product transition emission initial observations path

/-! ## The trellis -/

/-- The candidates of a layer: only those of the final maximum in the last one. -/
def widthFor (n final : ℕ) : List ω → ℕ
  | [] => final
  | _ :: _ => n

/-- The layers of the later observations. -/
def layers (n final : ℕ) : List ω → List (Layer K)
  | [] => []
  | o :: os =>
      { width := widthFor n final os, weight := fun i j => transition i j * emission j o } ::
        layers n final os

end Product

variable {initial : ℕ → Option K} {transition : ℕ → ℕ → Option K} {emission : ℕ → ω → Option K}
  {init : ℕ → K} {trans : ℕ → ℕ → K} {emit : ℕ → ω → K} {n final : ℕ}

variable {os : List ω}

omit [LinearOrder K] in
theorem score_eq_stepProduct {path : List ℕ} (hlen : path.length = os.length) (d : ℕ → K) (s : ℕ) :
    score d (layers trans emit n final os) (s :: path) = stepProduct trans emit (d s) s os path := by
  induction os generalizing d s path with
  | nil =>
      obtain rfl := length_eq_zero_iff.mp hlen
      rfl
  | cons o os ih =>
      cases path with
      | nil => cases hlen
      | cons s' path =>
          rw [layers, score, ih (Nat.succ_inj.mp hlen), stepProduct, mul_assoc]

omit [LinearOrder K] in
/-- A path through the trellis has a state for every observation, and ends in a state of the
final maximum. -/
theorem valid_iff (hle : final ≤ n) {s : ℕ} {path : List ℕ} :
    Valid (widthFor n final os) (layers trans emit n final os) (s :: path) ↔
      path.length = os.length ∧ (∀ i ∈ s :: path, i < n) ∧
        ∀ i ∈ (s :: path).getLast?, i < final := by
  induction os generalizing s path with
  | nil =>
      cases path with
      | nil => simpa [layers, widthFor, Valid] using fun h => h.trans_le hle
      | cons => simp [layers, Valid]
  | cons o os ih =>
      cases path with
      | nil => cases os <;> simp [layers, widthFor, Valid]
      | cons s' path =>
          rw [layers, Valid, ih, widthFor, getLast?_cons_cons, forall_mem_cons]
          simp only [length_cons, Nat.succ_inj, forall_mem_cons]
          tauto

/-! ## What the decoder finds -/

variable [CanonicallyOrderedAdd K]

/-- The parameters of the decoder can be read for every pair of states and every
observation. -/
structure Reads (n : ℕ) (transition : ℕ → ℕ → Option K) (emission : ℕ → ω → Option K)
    (trans : ℕ → ℕ → K) (emit : ℕ → ω → K) (os : List ω) : Prop where
  trans : ∀ i < n, ∀ j < n, transition i j = some (trans i j)
  emit : ∀ s < n, ∀ o ∈ os, emission s o = some (emit s o)

variable {delta : List K}

omit [LinearOrder K] [CanonicallyOrderedAdd K] in
theorem stepProb_eq {o : ω} (h : Reads n transition emission trans emit os) (ho : o ∈ os)
    (hdelta : delta.length = n) {s sPrev : ℕ} (hs : s < n) (hprev : sPrev < n) :
    stepProb transition emission delta o s sPrev =
      some (delta.getD sPrev 0 * (trans sPrev s * emit s o)) := by
  have hval : delta[sPrev]? = some (delta.getD sPrev 0) := by
    simp [getD_eq_getElem?_getD, getElem?_eq_getElem (hdelta ▸ hprev)]
  rw [stepProb, hval, h.trans sPrev hprev s hs, h.emit s hs o ho]
  simp only [Option.bind_eq_bind, Option.bind_some, mul_assoc]

/-- One pass of the recursion relaxes its layer, whatever part of it is asked for. -/
theorem recursionStep_spec {o : ω} (h : Reads n transition emission trans emit os) (ho : o ∈ os)
    (hdelta : delta.length = n) (hn : 0 < n) :
    ∃ cells, (List.range n).mapM (fun s => argmax n (stepProb transition emission delta o s)) =
        some cells ∧ cells.length = n ∧ ∀ w ≤ n,
      Relaxed n (delta.getD · 0) { width := w, weight := fun i j => trans i j * emit j o }
        ((cells.map Prod.fst).getD · 0) ((cells.map Prod.snd).getD · 0) := by
  have hcell : ∀ s < n, ∃ v i, argmax n (stepProb transition emission delta o s) = some (v, i) ∧
      i < n ∧ delta.getD i 0 * (trans i s * emit s o) = v ∧
      ∀ j < n, delta.getD j 0 * (trans j s * emit s o) ≤ v := fun s hs =>
    argmax_attained hn le_rfl (fun i hi => stepProb_eq h ho hdelta hs hi)
      (fun i hge hlt => absurd hlt (not_lt.mpr hge))
  obtain ⟨cells, hcells, hlen, hget⟩ := mapM_range_eq_some fun s hs => by
    obtain ⟨v, i, heq, -⟩ := hcell s hs
    exact ⟨(v, i), heq⟩
  refine ⟨cells, hcells, hlen, fun w hw s hsw => ?_⟩
  have hs : s < n := hsw.trans_le hw
  obtain ⟨v, i, heq, hi, hv, hmax⟩ := hcell s hs
  have hat := (hget s hs).trans heq
  have hd : (cells.map Prod.fst).getD s 0 = v := by
    rw [getD_eq_getElem?_getD, getElem?_map, hat]
    rfl
  have hp : (cells.map Prod.snd).getD s 0 = i := by
    rw [getD_eq_getElem?_getD, getElem?_map, hat]
    rfl
  simp only [hd, hp]
  exact ⟨hi, hv.symm, hmax⟩

theorem recursion_spec (h : Reads n transition emission trans emit os) (hdelta : delta.length = n)
    (hfinal : 0 < final) (hle : final ≤ n) :
    ∃ psis last v i path, recursion transition emission n delta os = some (psis, last) ∧
      argmax final (fun s => last[s]?) = some (v, i) ∧ HmmLoc.backtrack i psis = some path ∧
      Best (widthFor n final os) (delta.getD · 0) (layers trans emit n final os) path := by
  induction os generalizing delta with
  | nil =>
      have hread : ∀ s < final, delta[s]? = some (delta.getD s 0) := fun s hs => by
        simp [getD_eq_getElem?_getD, getElem?_eq_getElem (hdelta ▸ hs.trans_le hle)]
      obtain ⟨v, i, heq, hi, hv, hmax⟩ := argmax_attained hfinal le_rfl hread
        fun s hge hlt => absurd hlt (not_lt.mpr hge)
      refine ⟨[], delta, v, i, [i], rfl, heq, rfl, Best.single hi fun j hj => ?_⟩
      rw [hv]
      exact hmax j hj
  | cons o os ih =>
      obtain ⟨cells, hcells, hlen, hrelax⟩ :=
        recursionStep_spec h mem_cons_self hdelta (hfinal.trans_le hle)
      have hnext : (cells.map Prod.fst).length = n := by rw [length_map, hlen]
      obtain ⟨psis, last, v, i, path, hrec, harg, hback, hbest⟩ := ih
        ⟨h.trans, fun s hs o' ho' => h.emit s hs o' (mem_cons_of_mem _ ho')⟩ hnext
      obtain ⟨s, rest, rfl⟩ : ∃ s rest, path = s :: rest := by
        cases path with
        | nil => cases os <;> exact absurd hbest.1 (by simp [Valid, layers])
        | cons s rest => exact ⟨s, rest, rfl⟩
      have hs : s < n := ((valid_iff hle).mp hbest.1).2.1 s mem_cons_self
      refine ⟨cells.map Prod.snd :: psis, last, v, i, (cells.map Prod.snd).getD s 0 :: s :: rest,
        ?_, harg, ?_, ?_⟩
      · rw [recursion, hcells]
        simp only [Option.bind_eq_bind, Option.bind_some, hrec]
      · rw [HmmLoc.backtrack, hback]
        simp [getD_eq_getElem?_getD, getElem?_eq_getElem (hlen.symm ▸ hs)]
      · have hwidth : widthFor n final os ≤ n := by
          cases os with
          | nil => exact hle
          | cons => exact le_rfl
        exact Best.cons (hrelax _ hwidth) hbest

variable {observations : List ω}

/-- **The decoder finds** a path with the largest product among those that end in a state of
the final maximum. -/
theorem decode_spec (h : Reads n transition emission trans emit observations)
    (hinit : ∀ s < n, initial s = some (init s)) (hne : observations ≠ []) (hfinal : 0 < final)
    (hle : final ≤ n) :
    ∃ path, decode initial transition emission n final observations = some path ∧
      IsPath n observations path ∧ (∀ i ∈ path.getLast?, i < final) ∧
      ∀ path', IsPath n observations path' → (∀ i ∈ path'.getLast?, i < final) →
        product trans emit init observations path' ≤ product trans emit init observations path := by
  cases observations with
  | nil => exact absurd rfl hne
  | cons o os =>
      have hcell : ∀ s < n, initialProb initial emission o s = some (init s * emit s o) := by
        intro s hs
        rw [initialProb, hinit s hs, h.emit s hs o mem_cons_self]
        rfl
      obtain ⟨delta, hdelta, hlen, hget⟩ := mapM_range_eq_some fun s hs =>
        ⟨init s * emit s o, hcell s hs⟩
      have hval : ∀ s < n, delta.getD s 0 = init s * emit s o := by
        intro s hs
        rw [getD_eq_getElem?_getD, hget s hs, hcell s hs]
        rfl
      obtain ⟨psis, last, v, i, path, hrec, harg, hback, hvalid, hbest⟩ := recursion_spec
        ⟨h.trans, fun s hs o' ho' => h.emit s hs o' (mem_cons_of_mem _ ho')⟩ hlen hfinal hle
      obtain ⟨s, rest, rfl⟩ : ∃ s rest, path = s :: rest := by
        cases path with
        | nil => cases os <;> exact absurd hvalid (by simp [Valid, layers])
        | cons s rest => exact ⟨s, rest, rfl⟩
      obtain ⟨hpath, hlt, hlast⟩ := (valid_iff hle).mp hvalid
      refine ⟨s :: rest, ?_, ⟨congrArg Nat.succ hpath, hlt⟩, hlast, fun path' hpath' hlast' => ?_⟩
      · rw [decode, hdelta]
        simp only [Option.bind_eq_bind, Option.bind_some, hrec, harg, hback]
      · cases path' with
        | nil => cases hpath'.1
        | cons s' rest' =>
            have hlen' : rest'.length = os.length := Nat.succ_inj.mp hpath'.1
            have hscore := hbest (s' :: rest') ((valid_iff hle).mpr ⟨hlen', hpath'.2, hlast'⟩)
            rw [score_eq_stepProduct hlen', score_eq_stepProduct hpath,
              hval s' (hpath'.2 s' mem_cons_self), hval s (hlt s mem_cons_self)] at hscore
            exact hscore

/-- With the final maximum over all states, the path is optimal. -/
theorem decode_optimal (h : Reads n transition emission trans emit observations)
    (hinit : ∀ s < n, initial s = some (init s)) (hne : observations ≠ []) (hn : 0 < n) :
    ∃ path, decode initial transition emission n n observations = some path ∧
      OptimalPath trans emit n init observations path := by
  obtain ⟨path, hdecode, hpath, -, hmax⟩ := decode_spec h hinit hne hn le_rfl
  refine ⟨path, hdecode, hpath, fun path' hpath' => hmax path' hpath' fun i hi => ?_⟩
  exact hpath'.2 i (mem_of_getLast? hi)

end V2I.Hmm
