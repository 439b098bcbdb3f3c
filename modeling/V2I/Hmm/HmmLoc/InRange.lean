import V2I.Hmm.Decoder.Optimal

/-!
# V2I.Hmm.HmmLoc.InRange

Which trajectories the two decoders over the lanes of a map can read. Every list of
candidates is part of the list of all lanes, so as soon as there is one lane every index stays
below the number of lanes, also behind a point without candidates, whose rows of `delta` and
`psi` are zero (`recursion_inRange`). Without any lane both functions read `lanes[0]`, or an
entry of a matrix without columns; and `viterbiAlgorithmHDMap`, which lacks the check for
an empty trajectory, writes `best_path[-1]`.
-/

namespace V2I.HmmLoc

open Hdmap Viterbi List Option

variable {emission : ℕ → Point ℚ → ℚ≥0} {initialRange : ℚ} {m : HdmapImpl} {numStates : ℕ}

/-- A row of `psi` with entries that are columns again. -/
def RowInRange (numStates : ℕ) (psi : List ℕ) : Prop :=
  psi.length = numStates ∧ ∀ i ∈ psi, i < numStates

variable (emission) in
/-- One pass of the recursion reads and writes only what is there. -/
theorem recursionStep_inRange (hn : 0 < numStates) {nodes : List ℕ} {delta : List ℚ≥0}
    {pt : Point ℚ} (hnodes : nodes.length ≤ numStates) (hdelta : delta.length = numStates)
    (hnear : (m.getLanesNearPtEnu pt initialRange).length ≤ numStates) :
    ∃ delta' psi, recursionStep emission initialRange m numStates nodes delta pt =
        some (delta', psi) ∧ delta'.length = numStates ∧ RowInRange numStates psi := by
  have hcell : ∀ s < (m.getLanesNearPtEnu pt initialRange).length, ∃ c : ℚ≥0 × ℕ,
      argmax nodes.length (stepProb emission (m.calculateTransitionalProbability nodes
          (m.getLanesNearPtEnu pt initialRange)) delta (m.getLanesNearPtEnu pt initialRange) pt s) =
        some c ∧ c.2 < numStates := by
    intro s hs
    obtain ⟨v, i, heq, -, hat⟩ := argmax_spec fun i (hi : i < nodes.length) =>
      show stepProb emission _ _ _ _ _ _ = some _ from
        stepProb_eq (m := m) hi (hnodes.trans_eq hdelta.symm) hs
    refine ⟨(v, i), heq, ?_⟩
    rcases hat with ⟨-, rfl⟩ | ⟨hi, -, -⟩
    · exact hn
    · exact hi.trans_le hnodes
  obtain ⟨cells, hcells, hlen, hget⟩ := mapM_range_eq_some fun s hs => (hcell s hs).imp
    fun _ h => h.1
  refine ⟨_, _, by rw [recursionStep, if_neg (not_lt.mpr hnear), hcells], ?_, ?_, ?_⟩
  · simp [hlen]
    omega
  · simp [hlen]
    omega
  · intro i hi
    rcases mem_append.mp hi with hi | hi
    · obtain ⟨c, hc, rfl⟩ := mem_map.mp hi
      obtain ⟨s, hs, rfl⟩ := getElem_of_mem hc
      obtain ⟨c', hc', hlt⟩ := hcell s (hlen ▸ hs)
      have hsame := (hget s (hlen ▸ hs)).trans hc'
      rw [getElem?_eq_getElem hs, some_inj] at hsame
      exact hsame ▸ hlt
    · rw [(mem_replicate.mp hi).2]
      exact hn

variable (emission) in
theorem recursion_inRange (hn : 0 < numStates) {nodes : List ℕ} {delta : List ℚ≥0}
    {pts : List (Point ℚ)} (hnodes : nodes.length ≤ numStates) (hdelta : delta.length = numStates)
    (hnear : ∀ pt ∈ pts, (m.getLanesNearPtEnu pt initialRange).length ≤ numStates) :
    ∃ psis last, recursion emission initialRange m numStates nodes delta pts = some (psis, last) ∧
      (∀ psi ∈ psis, RowInRange numStates psi) ∧ last.length = numStates := by
  induction pts generalizing nodes delta with
  | nil => exact ⟨[], delta, rfl, by simp, hdelta⟩
  | cons pt pts ih =>
      obtain ⟨hpt, hpts⟩ := forall_mem_cons.mp hnear
      obtain ⟨delta', psi, hstep, hdelta', hpsi⟩ :=
        recursionStep_inRange emission hn hnodes hdelta hpt
      obtain ⟨psis, last, hrec, hrows, hlast⟩ := ih hpt hdelta' hpts
      refine ⟨psi :: psis, last, ?_, forall_mem_cons.mpr ⟨hpsi, hrows⟩, hlast⟩
      rw [recursion, hstep]
      simp only [hrec]

variable {psis : List (List ℕ)}

/-- Back-tracking through rows in range ends with a path in range. -/
theorem backtrack_inRange (hrows : ∀ psi ∈ psis, RowInRange numStates psi) {i : ℕ}
    (hi : i < numStates) :
    ∃ s path, backtrack i psis = some (s :: path) ∧ ∀ j ∈ s :: path, j < numStates := by
  induction psis with
  | nil => exact ⟨i, [], rfl, by simpa using hi⟩
  | cons psi psis ih =>
      obtain ⟨⟨hlen, hlt⟩, hrows⟩ := forall_mem_cons.mp hrows
      obtain ⟨s, path, hback, hpath⟩ := ih hrows
      have hs : s < psi.length := hlen.symm ▸ hpath s mem_cons_self
      refine ⟨psi[s], s :: path, ?_, forall_mem_cons.mpr ⟨hlt _ (getElem_mem hs), hpath⟩⟩
      rw [backtrack, hback]
      simp only [getElem?_eq_getElem hs]

/-- The path that back-tracking gives is never empty. -/
theorem backtrack_ne_nil {i : ℕ} : backtrack i psis ≠ some [] := by
  cases psis with
  | nil => simp [backtrack]
  | cons psi psis =>
      rw [backtrack]
      split
      · split
        · simp
        · simp
      · simp

variable {observations : List (Point ℚ)}

/-- Every candidate of a point is one of the lanes of the trajectory. -/
theorem length_near_le {pt : Point ℚ} (hpt : pt ∈ observations) :
    (m.getLanesNearPtEnu pt initialRange).length ≤
      (m.getLanesNearTrajectory observations initialRange).length := by
  cases observations with
  | nil => cases hpt
  | cons p pts =>
      obtain ⟨-, -, hmem⟩ := m.getLanesNearTrajectory_spec p pts initialRange
      exact (subperm_of_subset (m.nearPt_spec pt initialRange).1
        fun j hj => (hmem j).mpr ⟨pt, hpt, hj⟩).length_le

theorem viterbiAlgorithmHDMap2_inRange
    (hne : m.getLanesNearTrajectory observations initialRange ≠ []) :
    ∃ r, viterbiAlgorithmHDMap2 emission initialRange m observations = some r := by
  cases observations with
  | nil => exact ⟨[], rfl⟩
  | cons p pts =>
      have hnear : ∀ pt ∈ p :: pts, (m.getLanesNearPtEnu pt initialRange).length ≤
          (m.getLanesNearTrajectory (p :: pts) initialRange).length :=
        fun _ hpt => length_near_le hpt
      simp only [viterbiAlgorithmHDMap2]
      generalize m.getLanesNearTrajectory (p :: pts) initialRange = lanes at *
      have hn : 0 < lanes.length := length_pos_iff.mpr hne
      have hlen : (List.zipWith (fun prob lane => prob * emission lane p)
          (initialProbs lanes.length) lanes).length = lanes.length := by
        simp [initialProbs]
      obtain ⟨psis, last, hrec, hrows, hlast⟩ := recursion_inRange emission hn le_rfl hlen
        fun pt hpt => hnear pt (mem_cons_of_mem _ hpt)
      obtain ⟨v, i, harg, -, hat⟩ := argmax_spec (f := fun s => last[s]?) (g := (last.getD · 0))
        fun s hs => getElem?_eq_getD (hlast.symm ▸ hs) 0
      have hi : i < lanes.length := by
        rcases hat with ⟨-, rfl⟩ | ⟨hi, -, -⟩
        · exact hn
        · exact hi
      obtain ⟨s, path, hback, hpath⟩ := backtrack_inRange hrows hi
      refine ⟨(s :: path).map (lanes.getD · 0), ?_⟩
      simp only [hrec, bind_eq_bind, bind_some, harg, hback, mapM_getElem?_eq (x := 0) hpath]

theorem viterbiAlgorithmHDMap2_of_nil {p : Point ℚ} {pts : List (Point ℚ)}
    (h : m.getLanesNearTrajectory (p :: pts) initialRange = []) :
    viterbiAlgorithmHDMap2 emission initialRange m (p :: pts) = none := by
  simp only [viterbiAlgorithmHDMap2, h, bind_eq_bind, bind_eq_none_iff]
  intro _ _ _ _ path hpath
  exact mapM_nil_getElem? fun hnil => backtrack_ne_nil (hnil ▸ hpath)

theorem viterbiAlgorithmHDMap_of_nil (h : m.getLanesNearTrajectory observations initialRange = []) :
    Hmm.viterbiAlgorithmHDMap emission initialRange m observations = none := by
  cases observations with
  | nil => rfl
  | cons p pts =>
      simp only [Hmm.viterbiAlgorithmHDMap, Hmm.decode, h, bind_eq_bind, bind_eq_none_iff]
      intro path hpath
      obtain ⟨_, _, _, _, _, _, hback⟩ := by simpa only [bind_eq_some_iff] using hpath
      exact mapM_nil_getElem? fun hnil => backtrack_ne_nil (hnil ▸ hback)

/-- **When all indices are in range**: both functions return for a map and a trajectory just
when some lane is near some point of the trajectory. -/
theorem inRange_iff (emission : ℕ → Point ℚ → ℚ≥0) (initialRange : ℚ) (m : HdmapImpl)
    (observations : List (Point ℚ)) :
    ((∃ r, viterbiAlgorithmHDMap2 emission initialRange m observations = some r) ∧
        ∃ r, Hmm.viterbiAlgorithmHDMap emission initialRange m observations = some r) ↔
      ∃ pt ∈ observations, m.getLanesNearPtEnu pt initialRange ≠ [] := by
  have hlanes : (∃ pt ∈ observations, m.getLanesNearPtEnu pt initialRange ≠ []) ↔
      m.getLanesNearTrajectory observations initialRange ≠ [] := by
    cases observations with
    | nil => simp [HdmapImpl.getLanesNearTrajectory_eq]
    | cons p pts =>
        obtain ⟨-, -, hmem⟩ := m.getLanesNearTrajectory_spec p pts initialRange
        constructor
        · rintro ⟨pt, hpt, hne⟩
          obtain ⟨j, hj⟩ := exists_mem_of_ne_nil _ hne
          exact ne_nil_of_mem ((hmem j).mpr ⟨pt, hpt, hj⟩)
        · intro hne
          obtain ⟨j, hj⟩ := exists_mem_of_ne_nil _ hne
          obtain ⟨pt, hpt, hj⟩ := (hmem j).mp hj
          exact ⟨pt, hpt, ne_nil_of_mem hj⟩
  rw [hlanes]
  constructor
  · rintro ⟨-, r, hr⟩ hnil
    rw [viterbiAlgorithmHDMap_of_nil hnil] at hr
    cases hr
  · intro hne
    obtain ⟨path, hpath, -⟩ :=
      Hmm.viterbiAlgorithmHDMap_optimal emission initialRange m observations rfl hne
    exact ⟨viterbiAlgorithmHDMap2_inRange hne, _, hpath⟩

/-- A map with one straight lane. -/
def oneLane : HdmapImpl where
  lanebdyKdtree := true
  header := some ⟨true, 0, 100, 0, 100⟩
  lanesegs := [⟨some [⟨0, 0⟩, ⟨0, 50⟩], true⟩]
  lscTransitions _ := none

/-- At a point that is 50 away from the only lane there is nothing to read. -/
theorem inRange_counterexample :
    ¬ ((∃ r, viterbiAlgorithmHDMap2 (fun _ _ => 1) 5 oneLane [⟨50, 20⟩] = some r) ∧
      ∃ r, Hmm.viterbiAlgorithmHDMap (fun _ _ => 1) 5 oneLane [⟨50, 20⟩] = some r) := by
  rintro ⟨⟨r, hr⟩, -⟩
  rw [viterbiAlgorithmHDMap2_of_nil (by decide +kernel)] at hr
  cases hr

end V2I.HmmLoc
