import V2I.Hmm.Decoder

/-!
# V2I.Hmm.Decoder.Optimal

`HMM::viterbiAlgorithm` and `HMMLoc::viterbiAlgorithmHDMap` are optimal decoders: their
parameters can be read for every state (`HMM.reads`, `reads_hdmap`), so `decode_optimal`
applies to both (`viterbi_optimal`).
-/

namespace V2I.Hmm

open Hdmap

variable {K : Type} [CommSemiring K]

namespace HMM

variable (h : HMM K)

/-- `initial_probs_(s)` -/
def initial (s : ℕ) : K := h.initialProbs.getD s 0

/-- `transition_matrix_(i, j)` -/
def transition (i j : ℕ) : K := (h.transitionMatrix.getD i []).getD j 0

/-- `emission_matrix_(s, o)` -/
def emission (s o : ℕ) : K := (h.emissionMatrix.getD s []).getD o 0

end HMM

/-- Reading an entry of a matrix within its sizes. -/
theorem coeff_eq {matrix : List (List K)} {rows cols : ℕ} (hrows : matrix.length = rows)
    (hcols : ∀ row ∈ matrix, row.length = cols) {i j : ℕ} (hi : i < rows) (hj : j < cols) :
    coeff matrix i j = some ((matrix.getD i []).getD j 0) := by
  have hrow := getElem?_eq_getD (hrows.symm ▸ hi) []
  rw [coeff, hrow]
  exact getElem?_eq_getD ((hcols _ (List.mem_of_getElem? hrow)).symm ▸ hj) 0

variable {observations : List ℕ}

theorem HMM.reads (h : HMM K) (hobs : ∀ o ∈ observations, o < h.numObservations) :
    Reads h.numStates (coeff h.transitionMatrix) (coeff h.emissionMatrix) h.transition h.emission
      observations where
  trans _ hi _ hj := coeff_eq h.transition_rows h.transition_cols hi hj
  emit _ hs o ho := coeff_eq h.emission_rows h.emission_cols hs (hobs o ho)

variable (emission : ℕ → Point ℚ → ℚ≥0)

/-- The parameters that the decoder over the lanes of a trajectory reads. -/
theorem reads_hdmap (m : HdmapImpl) (lanes : List ℕ) (observations : List (Point ℚ)) :
    Reads lanes.length (coeff (m.calculateTransitionalProbability lanes lanes))
      (fun s pt => (lanes[s]?).map (emission · pt))
      (fun i j => m.transition (lanes.getD i 0) lanes (lanes.getD j 0))
      (fun s pt => emission (lanes.getD s 0) pt) observations where
  trans i hi j hj := by
    obtain ⟨row, hrow, hentry⟩ := HdmapImpl.calculateTransitionalProbability_getElem (m := m)
      (getElem?_eq_getD hi 0) (getElem?_eq_getD hj 0)
    rw [coeff, hrow]
    exact hentry
  emit s hs pt _ := by
    rw [getElem?_eq_getD hs 0, Option.map_some]

theorem initialProbs_getElem? {n s : ℕ} (hs : s < n) :
    (HmmLoc.initialProbs n)[s]? = some (1 / (n : ℚ≥0)) := by
  simp [HmmLoc.initialProbs, hs]

variable [LinearOrder K] [CanonicallyOrderedAdd K]

theorem viterbiAlgorithm_optimal (h : HMM K) (hn : 1 ≤ h.numStates) (hne : observations ≠ [])
    (hobs : ∀ o ∈ observations, o < h.numObservations) :
    ∃ path, h.viterbiAlgorithm observations = some path ∧
      OptimalPath h.transition h.emission h.numStates h.initial observations path :=
  decode_optimal (h.reads hobs) (fun _ hs => getElem?_eq_getD (h.initial_rows.symm ▸ hs) 0) hne hn

theorem viterbiAlgorithmHDMap_optimal (initialRange : ℚ) (m : HdmapImpl)
    (observations : List (Point ℚ)) {lanes : List ℕ}
    (hlanes : m.getLanesNearTrajectory observations initialRange = lanes) (hne : lanes ≠ []) :
    ∃ path, viterbiAlgorithmHDMap emission initialRange m observations =
        some (path.map (lanes.getD · 0)) ∧
      OptimalPath (fun i j => m.transition (lanes.getD i 0) lanes (lanes.getD j 0))
        (fun s pt => emission (lanes.getD s 0) pt) lanes.length (fun _ => 1 / lanes.length)
        observations path := by
  have hobs : observations ≠ [] := by
    rintro rfl
    rw [HdmapImpl.getLanesNearTrajectory_eq] at hlanes
    exact hne hlanes.symm
  obtain ⟨path, hdecode, hopt⟩ := decode_optimal (reads_hdmap emission m lanes observations)
    (fun _ hs => initialProbs_getElem? hs) hobs (List.length_pos_iff.mpr hne)
  refine ⟨path, ?_, hopt⟩
  simp only [viterbiAlgorithmHDMap, hlanes, Option.bind_eq_bind, hdecode, Option.bind_some]
  exact mapM_getElem?_eq hopt.1.2

/-- **Both decoders are optimal**: for every model with at least one state, and every
trajectory with at least one lane, the result is a sequence with one state for every
observation, and no other such sequence has a larger product. -/
theorem viterbi_optimal :
    (∀ (h : HMM K) (observations : List ℕ), 1 ≤ h.numStates → observations ≠ [] →
      (∀ o ∈ observations, o < h.numObservations) →
      ∃ path, h.viterbiAlgorithm observations = some path ∧
        OptimalPath h.transition h.emission h.numStates h.initial observations path) ∧
    ∀ (emission : ℕ → Point ℚ → ℚ≥0) (initialRange : ℚ) (m : HdmapImpl)
      (observations : List (Point ℚ)) (lanes : List ℕ),
      m.getLanesNearTrajectory observations initialRange = lanes → 1 ≤ lanes.length →
      ∃ path, viterbiAlgorithmHDMap emission initialRange m observations =
          some (path.map (lanes.getD · 0)) ∧
        OptimalPath (fun i j => m.transition (lanes.getD i 0) lanes (lanes.getD j 0))
          (fun s pt => emission (lanes.getD s 0) pt) lanes.length (fun _ => 1 / lanes.length)
          observations path :=
  ⟨fun h _ hn hne hobs => viterbiAlgorithm_optimal h hn hne hobs,
    fun emission initialRange m observations _ hlanes hlen =>
      viterbiAlgorithmHDMap_optimal emission initialRange m observations hlanes
        (List.length_pos_iff.mp hlen)⟩

/-- The parameters that the constructor of `HMM` sets. -/
def HMM.new : HMM ℚ≥0 where
  numStates := 2
  numObservations := 2
  transitionMatrix := [[0.7, 0.3], [0.4, 0.6]]
  initialProbs := [0.6, 0.4]
  emissionMatrix := [[0.9, 0.1], [0.2, 0.8]]
  transition_rows := rfl
  transition_cols := by simp
  initial_rows := rfl
  emission_rows := rfl
  emission_cols := by simp

/-- The example of the source, and a vehicle that changes from one lane to another one. -/
theorem viterbi_optimal_new :
    (∃ path, HMM.new.viterbiAlgorithm [0, 1, 0, 1, 1] = some path ∧
      OptimalPath HMM.new.transition HMM.new.emission 2 HMM.new.initial [0, 1, 0, 1, 1] path) ∧
    ∃ path, viterbiAlgorithmHDMap (fun s _ => s + 1) 5 HmmLoc.twoLanes [⟨0, 0⟩, ⟨11, 0⟩] =
        some (path.map ([0, 1].getD · 0)) ∧
      OptimalPath
        (fun i j => HmmLoc.twoLanes.transition ([0, 1].getD i 0) [0, 1] ([0, 1].getD j 0))
        (fun s _ => (([0, 1].getD s 0 : ℕ) : ℚ≥0) + 1) 2 (fun _ => 1 / (2 : ℕ))
        [(⟨0, 0⟩ : Point ℚ), ⟨11, 0⟩] path :=
  ⟨(viterbi_optimal (K := ℚ≥0)).1 HMM.new [0, 1, 0, 1, 1] (by decide) (by decide) (by decide),
    (viterbi_optimal (K := ℚ≥0)).2 (fun s _ => s + 1) 5 HmmLoc.twoLanes [⟨0, 0⟩, ⟨11, 0⟩] [0, 1]
      (by decide +kernel) (by decide)⟩

end V2I.Hmm
