import V2I.Lib.Lists
import V2I.Lib.MapM
import V2I.Lib.Viterbi
import V2I.MapCore.Hdmap

/-!
# V2I.Hmm.HmmLoc

Lane matching by a hidden Markov model: `HMMLoc::viterbiAlgorithmHDMap2` of
`modules/HMM/hmm_loc.cpp`. The candidates of the first point are all lanes near the
trajectory, those of every later point the lanes near that point, so the rows of `delta`
and `psi` are indexed by a different list at every time.

Probabilities are exact non-negative rationals. `emission` stands for the helper
`EmissionProbability(lane, point)`. A read or write outside a matrix or a vector has no
defined result: `none`.
-/

namespace V2I.HmmLoc

open Hdmap Viterbi

variable (emission : ℕ → Point ℚ → ℚ≥0) (initialRange : ℚ) (m : HdmapImpl)

/-- The uniform distribution, `initial_probs / initial_probs.sum()`. -/
def initialProbs (numStates : ℕ) : List ℚ≥0 :=
  let ones := List.replicate numStates 1
  ones.map (· / ones.sum)

/-- `delta(t-1, s_prev) * transitional_prob * EmissionProbability(...)`. -/
def stepProb (transition : List (List ℚ≥0)) (delta : List ℚ≥0) (lanesNeighbour : List ℕ)
    (pt : Point ℚ) (s sPrev : ℕ) : Option ℚ≥0 := do
  let row ← transition[sPrev]?
  let transitionalProb ← row[s]?
  let d ← delta[sPrev]?
  let lane ← lanesNeighbour[s]?
  some (d * transitionalProb * emission lane pt)

/-- One pass of the recursion: the rows `delta(t, ·)` and `psi(t, ·)`. Columns without a
candidate keep the zero they were created with. -/
def recursionStep (numStates : ℕ) (nodes : List ℕ) (delta : List ℚ≥0) (pt : Point ℚ) :
    Option (List ℚ≥0 × List ℕ) :=
  let lanesNeighbour := m.getLanesNearPtEnu pt initialRange
  let transition := m.calculateTransitionalProbability nodes lanesNeighbour
  if numStates < lanesNeighbour.length then none
  else
    match (List.range lanesNeighbour.length).mapM fun s =>
        argmax nodes.length (stepProb emission transition delta lanesNeighbour pt s) with
    | none => none
    | some cells =>
        let pad := numStates - lanesNeighbour.length
        some (cells.map Prod.fst ++ List.replicate pad 0, cells.map Prod.snd ++ List.replicate pad 0)

/-- The recursion over the later points: all rows of `psi`, and the last one of `delta`. -/
def recursion (numStates : ℕ) :
    List ℕ → List ℚ≥0 → List (Point ℚ) → Option (List (List ℕ) × List ℚ≥0)
  | _, delta, [] => some ([], delta)
  | nodes, delta, pt :: pts =>
      match recursionStep emission initialRange m numStates nodes delta pt with
      | none => none
      | some (delta', psi) =>
          match recursion numStates (m.getLanesNearPtEnu pt initialRange) delta' pts with
          | none => none
          | some (psis, last) => some (psi :: psis, last)

/-- `best_path[t] = psi(t + 1, best_path[t + 1])`, from the last index back. -/
def backtrack (bestFinalState : ℕ) : List (List ℕ) → Option (List ℕ)
  | [] => some [bestFinalState]
  | psi :: psis =>
      match backtrack bestFinalState psis with
      | some (s :: path) =>
          match psi[s]? with
          | none => none
          | some sPrev => some (sPrev :: s :: path)
      | _ => none

/-- `HMMLoc::viterbiAlgorithmHDMap2(observations, sp_hdmap)`. -/
def viterbiAlgorithmHDMap2 (observations : List (Point ℚ)) : Option (List ℕ) :=
  match observations with
  | [] => some []
  | p :: pts => do
      let lanes := m.getLanesNearTrajectory (p :: pts) initialRange
      let numStates := lanes.length
      let delta := List.zipWith (fun prob lane => prob * emission lane p)
        (initialProbs numStates) lanes
      let (psis, last) ← recursion emission initialRange m numStates lanes delta pts
      let (_, bestFinalState) ← argmax numStates fun s => last[s]?
      let bestPath ← backtrack bestFinalState psis
      bestPath.mapM fun idx => lanes[idx]?

end V2I.HmmLoc

/-!
## Optimal decoding

When `viterbiAlgorithmHDMap2` is an optimal decoder.

The recursion and the back-tracking find a best index path through the candidate lists
(`viterbi_spec`). The function then reads every index of that path in the list of all
lanes of the trajectory, whatever list it was an index into. So the result is right, for
all link tables and emission values, exactly when the candidates of every point are a
prefix of the candidates of the first one (`viterbi_optimal_iff`).
-/

namespace V2I.HmmLoc

open Hdmap Viterbi

variable (emission : ℕ → Point ℚ → ℚ≥0) (initialRange : ℚ) (m : HdmapImpl)

/-! ## What an optimal decoding is -/

/-- One lane for every point, each among the lanes near its point. -/
def Choice (c : List ℕ) (pts : List (Point ℚ)) : Prop :=
  List.Forall₂ (fun lane pt => lane ∈ m.getLanesNearPtEnu pt initialRange) c pts

/-- The product of `x` with the transition and emission probabilities of the lanes `bs`,
coming from lane `a`. -/
def stepScore : ℚ≥0 → ℕ → List (Point ℚ) → List ℕ → ℚ≥0
  | x, _, [], [] => x
  | x, a, pt :: pts, b :: bs =>
      stepScore (x * m.transition a (m.getLanesNearPtEnu pt initialRange) b * emission b pt) b pts bs
  | _, _, _, _ => 0

/-- The product of initial, transition and emission probabilities of a lane sequence. -/
def score : List (Point ℚ) → List ℕ → ℚ≥0
  | p :: pts, a :: bs =>
      stepScore emission initialRange m
        (1 / (m.getLanesNearTrajectory (p :: pts) initialRange).length * emission a p) a pts bs
  | _, _ => 0

/-- The result is a choice of candidates, and no choice has a larger product. -/
def OptimalDecoding (pts : List (Point ℚ)) (r : List ℕ) : Prop :=
  Choice initialRange m r pts ∧
    ∀ c, Choice initialRange m c pts →
      score emission initialRange m pts c ≤ score emission initialRange m pts r

/-! ## The trellis the function works on -/

/-- The layer of a later point, behind candidates `nodes`. -/
def layer (nodes : List ℕ) (pt : Point ℚ) : Layer ℚ≥0 where
  width := (m.getLanesNearPtEnu pt initialRange).length
  weight i j :=
    m.transition (nodes.getD i 0) (m.getLanesNearPtEnu pt initialRange)
        ((m.getLanesNearPtEnu pt initialRange).getD j 0) *
      emission ((m.getLanesNearPtEnu pt initialRange).getD j 0) pt

/-- The layers of all later points. -/
def layers : List ℕ → List (Point ℚ) → List (Layer ℚ≥0)
  | _, [] => []
  | nodes, pt :: pts =>
      layer emission initialRange m nodes pt :: layers (m.getLanesNearPtEnu pt initialRange) pts

variable {emission initialRange m}

/-- In range, a step probability is the value before times the layer's weight. -/
theorem stepProb_eq {nodes : List ℕ} {delta : List ℚ≥0} (hi : i < nodes.length)
    (hdelta : nodes.length ≤ delta.length) (hj : j < (m.getLanesNearPtEnu pt initialRange).length) :
    stepProb emission (m.calculateTransitionalProbability nodes
        (m.getLanesNearPtEnu pt initialRange)) delta (m.getLanesNearPtEnu pt initialRange) pt j i =
      some (delta.getD i 0 * (layer emission initialRange m nodes pt).weight i j) := by
  have hnode : nodes[i]? = some (nodes.getD i 0) := by
    simp [List.getD_eq_getElem?_getD, List.getElem?_eq_getElem hi]
  have hlane : (m.getLanesNearPtEnu pt initialRange)[j]? =
      some ((m.getLanesNearPtEnu pt initialRange).getD j 0) := by
    simp [List.getD_eq_getElem?_getD, List.getElem?_eq_getElem hj]
  have hval : delta[i]? = some (delta.getD i 0) := by
    simp [List.getD_eq_getElem?_getD, List.getElem?_eq_getElem (hi.trans_le hdelta)]
  obtain ⟨row, hrow, hentry⟩ :=
    HdmapImpl.calculateTransitionalProbability_getElem (m := m) hnode hlane
  rw [stepProb, hrow, hval, hlane]
  simp only [Option.bind_eq_bind, Option.bind_some, hentry, layer, mul_assoc]

variable (emission initialRange m) in
/-- **One pass of the recursion** relaxes its layer, and the columns behind the
candidates stay zero. -/
theorem recursionStep_spec {nodes : List ℕ} {delta : List ℚ≥0} (hne : nodes ≠ [])
    (hnodes : nodes.length ≤ numStates) (hdelta : delta.length = numStates)
    (hnear : (m.getLanesNearPtEnu pt initialRange).length ≤ numStates) :
    ∃ delta' psi, recursionStep emission initialRange m numStates nodes delta pt =
        some (delta', psi) ∧ delta'.length = numStates ∧ psi.length = numStates ∧
      Relaxed nodes.length (delta.getD · 0) (layer emission initialRange m nodes pt)
        (delta'.getD · 0) (psi.getD · 0) ∧
      ∀ s, (m.getLanesNearPtEnu pt initialRange).length ≤ s → delta'.getD s 0 = 0 := by
  have hpos : 0 < nodes.length := List.length_pos_iff.mpr hne
  have hcell : ∀ s < (m.getLanesNearPtEnu pt initialRange).length,
      ∃ v i, argmax nodes.length (stepProb emission (m.calculateTransitionalProbability nodes
          (m.getLanesNearPtEnu pt initialRange)) delta (m.getLanesNearPtEnu pt initialRange) pt s) =
        some (v, i) ∧ i < nodes.length ∧
        delta.getD i 0 * (layer emission initialRange m nodes pt).weight i s = v ∧
        ∀ j < nodes.length,
          delta.getD j 0 * (layer emission initialRange m nodes pt).weight j s ≤ v := by
    intro s hs
    exact argmax_attained hpos le_rfl
      (fun i hi => stepProb_eq hi (hnodes.trans_eq hdelta.symm) hs)
      (fun i hge hlt => absurd hlt (not_lt.mpr hge))
  obtain ⟨cells, hcells, hlen, hget⟩ := mapM_range_eq_some fun s hs => by
    obtain ⟨v, i, heq, -⟩ := hcell s hs
    exact ⟨(v, i), heq⟩
  refine ⟨cells.map Prod.fst ++ List.replicate
      (numStates - (m.getLanesNearPtEnu pt initialRange).length) 0,
    cells.map Prod.snd ++ List.replicate
      (numStates - (m.getLanesNearPtEnu pt initialRange).length) 0, ?_, ?_, ?_, ?_, ?_⟩
  · rw [recursionStep, if_neg (not_lt.mpr hnear), hcells]
  · simp [hlen]
    omega
  · simp [hlen]
    omega
  · intro s hs
    have hs' : s < (m.getLanesNearPtEnu pt initialRange).length := hs
    obtain ⟨v, i, heq, hi, hv, hmax⟩ := hcell s hs'
    have hat := (hget s hs').trans heq
    have hd : (cells.map Prod.fst ++ List.replicate
        (numStates - (m.getLanesNearPtEnu pt initialRange).length) 0).getD s 0 = v := by
      rw [List.getD_eq_getElem?_getD, List.getElem?_append_left (by simpa [hlen] using hs'),
        List.getElem?_map, hat]
      rfl
    have hp : (cells.map Prod.snd ++ List.replicate
        (numStates - (m.getLanesNearPtEnu pt initialRange).length) 0).getD s 0 = i := by
      rw [List.getD_eq_getElem?_getD, List.getElem?_append_left (by simpa [hlen] using hs'),
        List.getElem?_map, hat]
      rfl
    simp only [hd, hp]
    exact ⟨hi, hv.symm, hmax⟩
  · intro s hs
    rw [List.getD_eq_getElem?_getD, List.getElem?_append_right (by simpa [hlen] using hs),
      List.getElem?_replicate]
    split <;> rfl

variable (emission initialRange m) in
/-- **The decoder finds a best index path**: recursion, final maximum and back-tracking
succeed, and no path through the candidate lists has a larger score. -/
theorem recursion_backtrack_spec {nodes : List ℕ} {delta : List ℚ≥0} (hne : nodes ≠ [])
    (hnodes : nodes.length ≤ numStates) (hdelta : delta.length = numStates)
    (hzero : ∀ s, nodes.length ≤ s → delta.getD s 0 = 0)
    (hpts : ∀ pt ∈ pts, m.getLanesNearPtEnu pt initialRange ≠ [] ∧
      (m.getLanesNearPtEnu pt initialRange).length ≤ numStates) :
    ∃ psis last v i path,
      recursion emission initialRange m numStates nodes delta pts = some (psis, last) ∧
      argmax numStates (fun s => last[s]?) = some (v, i) ∧
      backtrack i psis = some path ∧
      Best nodes.length (delta.getD · 0) (layers emission initialRange m nodes pts) path := by
  induction pts generalizing nodes delta with
  | nil =>
      have hread : ∀ s < numStates, delta[s]? = some (delta.getD s 0) := fun s hs => by
        simp [List.getD_eq_getElem?_getD, List.getElem?_eq_getElem (hdelta ▸ hs)]
      obtain ⟨v, i, heq, hi, hv, hmax⟩ := argmax_attained (List.length_pos_iff.mpr hne) hnodes
        hread fun s hge _ => hzero s hge
      refine ⟨[], delta, v, i, [i], rfl, heq, rfl, Best.single hi fun j hj => ?_⟩
      rw [hv]
      exact hmax j (hj.trans_le hnodes)
  | cons pt pts ih =>
      obtain ⟨hnear, hlen⟩ := hpts pt List.mem_cons_self
      obtain ⟨delta', psi, hstep, hlen', hpsi, hrelax, hzero'⟩ :=
        recursionStep_spec emission initialRange m hne hnodes hdelta hlen
      obtain ⟨psis, last, v, i, path, hrec, harg, hback, hbest⟩ := ih hnear hlen hlen' hzero'
        fun q hq => hpts q (List.mem_cons_of_mem _ hq)
      obtain ⟨s, rest, rfl⟩ : ∃ s rest, path = s :: rest := by
        cases path with
        | nil => cases pts <;> exact absurd hbest.1 (by simp [Valid, layers])
        | cons s rest => exact ⟨s, rest, rfl⟩
      have hs : s < psi.length := by
        have : s < (m.getLanesNearPtEnu pt initialRange).length := by
          cases pts with
          | nil =>
              cases rest with
              | nil => exact hbest.1
              | cons => exact absurd hbest.1 (by simp [Valid, layers])
          | cons => exact hbest.1.1
        omega
      refine ⟨psi :: psis, last, v, i, psi.getD s 0 :: s :: rest, ?_, harg, ?_, ?_⟩
      · rw [recursion, hstep]
        simp only [hrec]
      · rw [backtrack, hback]
        simp [List.getD_eq_getElem?_getD, List.getElem?_eq_getElem hs]
      · exact Best.cons hrelax hbest

/-! ## Index paths and lane sequences -/

/-- The lanes that an index path through the candidate lists stands for. -/
def picks : List (List ℕ) → List ℕ → List ℕ :=
  List.zipWith fun nodes i => nodes.getD i 0

/-- The candidate lists of the later points. -/
def nearLists (initialRange : ℚ) (m : HdmapImpl) (pts : List (Point ℚ)) : List (List ℕ) :=
  pts.map fun pt => m.getLanesNearPtEnu pt initialRange

/-- The score of an index path is the product of the lanes it stands for. -/
theorem score_eq_stepScore (hv : Valid nodes.length (layers emission initialRange m nodes pts)
      (i :: path)) (d : ℕ → ℚ≥0) :
    Viterbi.score d (layers emission initialRange m nodes pts) (i :: path) =
      stepScore emission initialRange m (d i) (nodes.getD i 0) pts
        (picks (nearLists initialRange m pts) path) := by
  induction pts generalizing nodes i path d with
  | nil =>
      cases path with
      | nil => rfl
      | cons => exact absurd hv (by simp [Valid, layers])
  | cons pt pts ih =>
      cases path with
      | nil => cases pts <;> exact absurd hv.2 (by simp [Valid, layers])
      | cons j path =>
          rw [layers, Viterbi.score, ih hv.2]
          simp only [layer, nearLists, picks, List.map_cons, List.zipWith_cons_cons, stepScore,
            mul_assoc]

variable (emission) in
/-- Every choice of candidates is picked by an index path. -/
theorem exists_path_of_choice (ha : a ∈ nodes) (hbs : Choice initialRange m bs pts) :
    ∃ i path, Valid nodes.length (layers emission initialRange m nodes pts) (i :: path) ∧
      nodes.getD i 0 = a ∧ picks (nearLists initialRange m pts) path = bs := by
  induction pts generalizing nodes a bs with
  | nil =>
      obtain ⟨i, hi, rfl⟩ := List.getElem_of_mem ha
      cases hbs
      refine ⟨i, [], hi, ?_, rfl⟩
      simp [List.getD_eq_getElem?_getD, List.getElem?_eq_getElem hi]
  | cons pt pts ih =>
      obtain ⟨i, hi, rfl⟩ := List.getElem_of_mem ha
      cases hbs with
      | cons hb hbs =>
          obtain ⟨j, path, hv, hj, hpath⟩ := ih hb hbs
          refine ⟨i, j :: path, ⟨hi, hv⟩, ?_, ?_⟩
          · simp [List.getD_eq_getElem?_getD, List.getElem?_eq_getElem hi]
          · rw [← hj, ← hpath]
            rfl

/-- The indices of a path are in range. -/
theorem lt_of_valid (hv : Valid nodes.length (layers emission initialRange m nodes pts)
      (i :: path)) :
    i < nodes.length ∧
      List.Forall₂ (fun j pt => j < (m.getLanesNearPtEnu pt initialRange).length) path pts := by
  induction pts generalizing nodes i path with
  | nil =>
      cases path with
      | nil => exact ⟨hv, List.Forall₂.nil⟩
      | cons => exact absurd hv (by simp [Valid, layers])
  | cons pt pts ih =>
      cases path with
      | nil => cases pts <;> exact absurd hv.2 (by simp [Valid, layers])
      | cons j path =>
          obtain ⟨hj, hlt⟩ := ih hv.2
          exact ⟨hv.1, List.Forall₂.cons hj hlt⟩

/-- Indices in range pick candidates. -/
theorem choice_picks
    (h : List.Forall₂ (fun j pt => j < (m.getLanesNearPtEnu pt initialRange).length) path pts) :
    Choice initialRange m (picks (nearLists initialRange m pts) path) pts := by
  induction h with
  | nil => exact List.Forall₂.nil
  | cons hj _ ih => exact List.Forall₂.cons (getD_mem hj) ih

/-- **What the function returns**: some index path is best among all choices of a lane of
the trajectory for the first point and of a candidate for every later one, and the result
reads every index of it in the list of all lanes. -/
theorem viterbi_spec (emission : ℕ → Point ℚ → ℚ≥0) (p : Point ℚ) (pts : List (Point ℚ))
    (hnear : ∀ pt ∈ p :: pts, m.getLanesNearPtEnu pt initialRange ≠ []) :
    ∃ i path,
      viterbiAlgorithmHDMap2 emission initialRange m (p :: pts) =
        some ((i :: path).map ((m.getLanesNearTrajectory (p :: pts) initialRange).getD · 0)) ∧
      i < (m.getLanesNearTrajectory (p :: pts) initialRange).length ∧
      List.Forall₂ (fun j pt => j < (m.getLanesNearPtEnu pt initialRange).length) path pts ∧
      ∀ a bs, a ∈ m.getLanesNearTrajectory (p :: pts) initialRange →
        Choice initialRange m bs pts →
        score emission initialRange m (p :: pts) (a :: bs) ≤
          score emission initialRange m (p :: pts)
            ((m.getLanesNearTrajectory (p :: pts) initialRange).getD i 0 ::
              picks (nearLists initialRange m pts) path) := by
  obtain ⟨hpre, hnodup, hmem⟩ := m.getLanesNearTrajectory_spec p pts initialRange
  have hsub : ∀ pt ∈ p :: pts, (m.getLanesNearPtEnu pt initialRange).length ≤
      (m.getLanesNearTrajectory (p :: pts) initialRange).length := fun pt hpt =>
    (List.subperm_of_subset (m.nearPt_spec pt initialRange).1
      fun j hj => (hmem j).mpr ⟨pt, hpt, hj⟩).length_le
  generalize hlanes : m.getLanesNearTrajectory (p :: pts) initialRange = lanes at *
  have hne : lanes ≠ [] := by
    intro h
    rw [h] at hpre
    exact hnear p List.mem_cons_self (List.prefix_nil.mp hpre)
  have hinit : ∀ i (hi : i < lanes.length), (List.zipWith (fun prob lane => prob * emission lane p)
      (initialProbs lanes.length) lanes).getD i 0 = 1 / lanes.length * emission (lanes.getD i 0) p := by
    intro i hi
    simp [List.getD_eq_getElem?_getD, initialProbs, hi]
  have hlen : (List.zipWith (fun prob lane => prob * emission lane p)
      (initialProbs lanes.length) lanes).length = lanes.length := by
    simp [initialProbs]
  obtain ⟨psis, last, v, s, path, hrec, harg, hback, hbest⟩ :=
    recursion_backtrack_spec emission initialRange m hne le_rfl hlen
      (fun s hs => by
        rw [List.getD_eq_getElem?_getD, List.getElem?_eq_none (hlen.trans_le hs), Option.getD_none])
      (fun pt (hpt : pt ∈ pts) =>
        ⟨hnear pt (List.mem_cons_of_mem _ hpt), hsub pt (List.mem_cons_of_mem _ hpt)⟩)
  obtain ⟨i, path, rfl⟩ : ∃ i rest, path = i :: rest := by
    cases path with
    | nil => cases pts <;> exact absurd hbest.1 (by simp [Valid, layers])
    | cons i rest => exact ⟨i, rest, rfl⟩
  obtain ⟨hi, hpath⟩ := lt_of_valid hbest.1
  have hval : ∀ a rest, Valid lanes.length (layers emission initialRange m lanes pts) (a :: rest) →
      score emission initialRange m (p :: pts)
          (lanes.getD a 0 :: picks (nearLists initialRange m pts) rest) =
        Viterbi.score ((List.zipWith (fun prob lane => prob * emission lane p)
          (initialProbs lanes.length) lanes).getD · 0)
          (layers emission initialRange m lanes pts) (a :: rest) := by
    intro a rest hv
    rw [score_eq_stepScore hv, hinit a (lt_of_valid hv).1, score, hlanes]
  refine ⟨i, path, ?_, hi, hpath, fun a bs ha hbs => ?_⟩
  · have hread : (i :: path).mapM (fun idx => lanes[idx]?) =
        some ((i :: path).map (lanes.getD · 0)) := by
      apply mapM_getElem?_eq
      intro j hj
      rcases List.mem_cons.mp hj with rfl | hj
      · exact hi
      · obtain ⟨k, hk, rfl⟩ := List.getElem_of_mem hj
        have hk' : k < pts.length := hpath.length_eq ▸ hk
        exact (hpath.get hk hk').trans_le (hsub _ (List.mem_cons_of_mem _ (List.getElem_mem hk')))
    simp only [viterbiAlgorithmHDMap2, hlanes, hrec, Option.bind_eq_bind, Option.bind_some, harg,
      hback, hread]
  · obtain ⟨k, rest, hv, rfl, rfl⟩ := exists_path_of_choice emission ha hbs
    rw [hval k rest hv, hval i path hbest.1]
    exact hbest.2 _ hv

/-! ## Products of probabilities -/

/-- The product is linear in its start value. -/
theorem stepScore_mul (x y : ℚ≥0) (a : ℕ) (pts : List (Point ℚ)) (bs : List ℕ) :
    stepScore emission initialRange m (x * y) a pts bs =
      x * stepScore emission initialRange m y a pts bs := by
  induction pts generalizing y a bs with
  | nil => cases bs <;> simp [stepScore]
  | cons pt pts ih =>
      cases bs with
      | nil => simp [stepScore]
      | cons b bs => rw [stepScore, stepScore, ← ih, mul_assoc x, mul_assoc x]

/-- A product that does not vanish has no vanishing emission. -/
theorem emission_ne_zero_of_stepScore (h : stepScore emission initialRange m x a pts bs ≠ 0) :
    x ≠ 0 ∧ List.Forall₂ (fun b pt => emission b pt ≠ 0) bs pts := by
  induction pts generalizing x a bs with
  | nil =>
      cases bs with
      | nil => exact ⟨h, List.Forall₂.nil⟩
      | cons => exact absurd rfl h
  | cons pt pts ih =>
      cases bs with
      | nil => exact absurd rfl h
      | cons b bs =>
          obtain ⟨hx, hrest⟩ := ih h
          have hem := right_ne_zero_of_mul hx
          exact ⟨left_ne_zero_of_mul (left_ne_zero_of_mul hx), List.Forall₂.cons hem hrest⟩

/-- Where all lanes are linked, a choice without a vanishing emission has a positive
product. -/
theorem stepScore_pos (hlink : ∀ a b, b < m.lanesegs.length → 0 < m.linkWeight a b)
    (hx : 0 < x) (hc : Choice initialRange m bs pts)
    (hem : List.Forall₂ (fun b pt => 0 < emission b pt) bs pts) :
    0 < stepScore emission initialRange m x a pts bs := by
  induction hc generalizing x a with
  | nil => exact hx
  | @cons b pt bs pts hb hbs ih =>
      cases hem with
      | cons hem hrest =>
          rw [stepScore]
          apply ih _ hrest
          have hlt := (m.nearPt_spec pt initialRange).2 b hb
          exact mul_pos (mul_pos hx (HdmapImpl.transition_pos hb (hlink a b hlt))) hem

/-- Only the emissions of the chosen lanes matter. -/
theorem stepScore_congr {emission' : ℕ → Point ℚ → ℚ≥0}
    (h : List.Forall₂ (fun b pt => emission b pt = emission' b pt) bs pts) :
    stepScore emission initialRange m x a pts bs =
      stepScore emission' initialRange m x a pts bs := by
  induction h generalizing x a with
  | nil => rfl
  | cons hb _ ih => rw [stepScore, stepScore, hb, ih]

/-- With emissions at most one the product only shrinks. -/
theorem stepScore_le (hc : Choice initialRange m bs pts)
    (hem : List.Forall₂ (fun b pt => emission b pt ≤ 1) bs pts) :
    stepScore emission initialRange m x a pts bs ≤ x := by
  induction hc generalizing x a with
  | nil => exact le_rfl
  | @cons b pt bs pts hb hbs ih =>
      cases hem with
      | cons hem hrest =>
          rw [stepScore]
          refine (ih hrest).trans ?_
          rw [mul_assoc]
          exact mul_le_of_le_one_right' (mul_le_one' (HdmapImpl.transition_le_one hb) hem)

/-! ## When the decoder is right -/

/-- The map with another table of lane transitions. -/
def withTransitions (m : HdmapImpl) (links : ℕ → Option LanesectTransition) : HdmapImpl :=
  { m with lscTransitions := links }

/-- Behind a common prefix all lists read the same lane at an index. -/
theorem map_eq_picks_of_prefix
    (h : List.Forall₂ (fun j pt => j < (m.getLanesNearPtEnu pt initialRange).length) path pts)
    (hinit : ∀ pt ∈ pts, m.getLanesNearPtEnu pt initialRange <+: l) :
    path.map (l.getD · 0) = picks (nearLists initialRange m pts) path := by
  induction h with
  | nil => rfl
  | @cons j pt path pts hj _ ih =>
      have hget : l.getD j 0 = (m.getLanesNearPtEnu pt initialRange).getD j 0 := by
        obtain ⟨rest, hrest⟩ := hinit pt List.mem_cons_self
        rw [← hrest, List.getD_eq_getElem?_getD, List.getElem?_append_left hj,
          ← List.getD_eq_getElem?_getD]
      rw [List.map_cons, hget, ih fun q hq => hinit q (List.mem_cons_of_mem _ hq)]
      rfl

/-- **The condition is enough**: when the candidates of every point are a prefix of those
of the first one, an index means the same lane in every list. -/
theorem optimal_of_prefix (emission : ℕ → Point ℚ → ℚ≥0) (p : Point ℚ) (pts : List (Point ℚ))
    (hnear : ∀ pt ∈ p :: pts, m.getLanesNearPtEnu pt initialRange ≠ [])
    (hinit : ∀ pt ∈ pts,
      m.getLanesNearPtEnu pt initialRange <+: m.getLanesNearPtEnu p initialRange) :
    ∃ r, viterbiAlgorithmHDMap2 emission initialRange m (p :: pts) = some r ∧
      OptimalDecoding emission initialRange m (p :: pts) r := by
  obtain ⟨i, path, hrun, hi, hpath, hmax⟩ := viterbi_spec emission p pts hnear
  obtain ⟨hpre, hnodup, hmem⟩ := m.getLanesNearTrajectory_spec p pts initialRange
  have hlanes : m.getLanesNearTrajectory (p :: pts) initialRange =
      m.getLanesNearPtEnu p initialRange := by
    have hsub : m.getLanesNearTrajectory (p :: pts) initialRange ⊆
        m.getLanesNearPtEnu p initialRange := by
      intro j hj
      obtain ⟨q, hq, hjq⟩ := (hmem j).mp hj
      rcases List.mem_cons.mp hq with rfl | hq
      · exact hjq
      · exact (hinit q hq).subset hjq
    exact (hpre.eq_of_length_le (List.subperm_of_subset hnodup hsub).length_le).symm
  rw [hlanes] at hrun hi hmax
  rw [List.map_cons, map_eq_picks_of_prefix hpath hinit] at hrun
  refine ⟨_, hrun, List.Forall₂.cons (getD_mem hi) (choice_picks hpath), fun c hc => ?_⟩
  cases hc with
  | cons ha hbs => exact hmax _ _ ha hbs

/-- Links from every lane to every lane. -/
def allLinked (m : HdmapImpl) : ℕ → Option LanesectTransition := fun _ =>
  some ⟨List.range m.lanesegs.length, [], []⟩

theorem linkWeight_allLinked_pos (m : HdmapImpl) (a b : ℕ) (hb : b < m.lanesegs.length) :
    0 < (withTransitions m (allLinked m)).linkWeight a b := by
  unfold HdmapImpl.linkWeight
  split
  · exact one_pos
  · simp [withTransitions, allLinked, hb]

/-- The decoder is right for all link tables and emissions. -/
def AlwaysOptimal (initialRange : ℚ) (m : HdmapImpl) (pts : List (Point ℚ)) : Prop :=
  ∀ links emission, ∃ r,
    viterbiAlgorithmHDMap2 emission initialRange (withTransitions m links) pts = some r ∧
      OptimalDecoding emission initialRange (withTransitions m links) pts r

theorem choice_map {f : Point ℚ → ℕ} (h : ∀ q ∈ pts, f q ∈ m.getLanesNearPtEnu q initialRange) :
    Choice initialRange m (pts.map f) pts := by
  induction pts with
  | nil => exact List.Forall₂.nil
  | cons q pts ih =>
      exact List.Forall₂.cons (h q List.mem_cons_self)
        (ih fun q' hq' => h q' (List.mem_cons_of_mem _ hq'))

theorem forall₂_map {f : Point ℚ → ℕ} {P : ℕ → Point ℚ → Prop} (h : ∀ q ∈ pts, P (f q) q) :
    List.Forall₂ P (pts.map f) pts := by
  induction pts with
  | nil => exact List.Forall₂.nil
  | cons q pts ih =>
      exact List.Forall₂.cons (h q List.mem_cons_self)
        (ih fun q' hq' => h q' (List.mem_cons_of_mem _ hq'))

theorem initial_pos (hne : m.getLanesNearPtEnu p initialRange ≠ []) :
    (0 : ℚ≥0) < 1 / (m.getLanesNearTrajectory (p :: pts) initialRange).length := by
  obtain ⟨hpre, -, -⟩ := m.getLanesNearTrajectory_spec p pts initialRange
  have hlen := hpre.length_le
  have hpos := List.length_pos_iff.mpr hne
  exact one_div_pos.mpr (Nat.cast_pos.mpr (hpos.trans_le hlen))

/-- **Later points**: were the candidates of a point no prefix of the lanes, emissions
that single out one of them would be decoded as another lane. -/
theorem prefix_lanes_of_alwaysOptimal (hnear : ∀ q ∈ p :: pts, m.getLanesNearPtEnu q initialRange ≠ [])
    (h : AlwaysOptimal initialRange m (p :: pts)) (hpt : pt ∈ pts) :
    m.getLanesNearPtEnu pt initialRange <+: m.getLanesNearTrajectory (p :: pts) initialRange := by
  rw [List.prefix_iff_getElem?]
  intro s hs
  generalize hL : (m.getLanesNearPtEnu pt initialRange)[s] = lane
  have hlane : lane ∈ m.getLanesNearPtEnu pt initialRange := hL ▸ List.getElem_mem hs
  -- Only `lane` is possible at `pt`, and everything is possible elsewhere.
  let em : ℕ → Point ℚ → ℚ≥0 := fun b q => if q = pt ∧ b ≠ lane then 0 else 1
  let m' := withTransitions m (allLinked m)
  have hem : ∀ b q, em b q ≠ 0 → q = pt → b = lane := by
    intro b q hne hq
    by_contra hb
    exact hne (if_pos ⟨hq, hb⟩)
  let f : Point ℚ → ℕ := fun q =>
    if q = pt then lane else (m.getLanesNearPtEnu q initialRange).getD 0 0
  have hf : ∀ q ∈ p :: pts, f q ∈ m'.getLanesNearPtEnu q initialRange := by
    intro q hq
    simp only [f]
    split
    · next heq => rw [heq]; exact hlane
    · exact getD_mem (List.length_pos_iff.mpr (hnear q hq))
  have hfem : ∀ q, 0 < em (f q) q := by
    intro q
    have : em (f q) q = 1 := if_neg fun hq => hq.2 (if_pos hq.1)
    rw [this]
    exact one_pos
  have hpos : 0 < score em initialRange m' (p :: pts) ((p :: pts).map f) :=
    stepScore_pos (linkWeight_allLinked_pos m)
      (mul_pos (initial_pos (m := m') (hnear p List.mem_cons_self)) (hfem p))
      (choice_map fun q hq => hf q (List.mem_cons_of_mem _ hq)) (forall₂_map fun q _ => hfem q)
  obtain ⟨r, hr, hchoice, hmaxr⟩ := h (allLinked m) em
  obtain ⟨i, path, hrun, hi, hpath, hmax⟩ := viterbi_spec (m := m') em p pts hnear
  obtain rfl := Option.some.inj (hr.symm.trans hrun)
  obtain ⟨hpre, -, hmem⟩ := m.getLanesNearTrajectory_spec p pts initialRange
  have hbest := hpos.trans_le (hmax (f p) (pts.map f)
    (hpre.subset (hf p List.mem_cons_self))
    (choice_map fun q hq => hf q (List.mem_cons_of_mem _ hq)))
  have hres := hpos.trans_le (hmaxr _ (choice_map hf))
  obtain ⟨-, hpicked⟩ := emission_ne_zero_of_stepScore hbest.ne'
  obtain ⟨-, hread⟩ := emission_ne_zero_of_stepScore hres.ne'
  obtain ⟨k, hk, rfl⟩ := List.getElem_of_mem hpt
  have hkp : k < path.length := hpath.length_eq ▸ hk
  have hlt : path[k] < (m.getLanesNearPtEnu pts[k] initialRange).length := hpath.get hkp hk
  -- The best path is at `lane` here, so its index is `s` ...
  have hat : (m.getLanesNearPtEnu pts[k] initialRange).getD path[k] 0 = lane := by
    have hpick := hem _ _ (hpicked.get (hpicked.length_eq ▸ hk) hk) rfl
    simp only [picks, nearLists, List.get_eq_getElem, List.getElem_zipWith, List.getElem_map] at hpick
    exact hpick
  have hidx : path[k] = s := by
    rw [List.getD_eq_getElem?_getD, List.getElem?_eq_getElem hlt, Option.getD_some] at hat
    exact (m.nearPt_spec pts[k] initialRange).1.getElem_inj_iff.mp (hat.trans hL.symm)
  -- ... and what is read at `s` in the list of all lanes has to be `lane` as well.
  have hres' : (m.getLanesNearTrajectory (p :: pts) initialRange).getD path[k] 0 = lane := by
    have hval := hem _ _ (hread.get (hread.length_eq ▸ hk) hk) rfl
    simp only [List.get_eq_getElem, List.getElem_map] at hval
    exact hval
  have hsl : s < (m.getLanesNearTrajectory (p :: pts) initialRange).length :=
    hs.trans_le (List.subperm_of_subset (m.nearPt_spec pts[k] initialRange).1
      fun j hj => (hmem j).mpr ⟨_, List.mem_cons_of_mem _ hpt, hj⟩).length_le
  rw [hidx, List.getD_eq_getElem?_getD, List.getElem?_eq_getElem hsl, Option.getD_some] at hres'
  rw [List.getElem?_eq_getElem hsl, hres']

/-- **The first point**: were some lane of the trajectory not near it, an emission large
enough there would make the decoder start on that lane. -/
theorem lanes_subset_of_alwaysOptimal
    (hnear : ∀ q ∈ p :: pts, m.getLanesNearPtEnu q initialRange ≠ [])
    (h : AlwaysOptimal initialRange m (p :: pts)) :
    m.getLanesNearTrajectory (p :: pts) initialRange ⊆ m.getLanesNearPtEnu p initialRange := by
  intro lane hlane
  by_contra hfar
  let m' := withTransitions m (allLinked m)
  let f : Point ℚ → ℕ := fun q => (m.getLanesNearPtEnu q initialRange).getD 0 0
  have hf : Choice initialRange m' (pts.map f) pts := choice_map fun q hq =>
    getD_mem (List.length_pos_iff.mpr (hnear q (List.mem_cons_of_mem _ hq)))
  have hinit : (0 : ℚ≥0) < 1 / (m'.getLanesNearTrajectory (p :: pts) initialRange).length :=
    initial_pos (hnear p List.mem_cons_self)
  -- The product of a choice that starts on `lane`, but for its first emission.
  generalize hx : (1 / (m'.getLanesNearTrajectory (p :: pts) initialRange).length : ℚ≥0) = x at hinit
  have hx1 : x ≤ 1 := by
    rw [← hx]
    exact div_le_one_of_le₀ (Nat.one_le_cast.mpr (List.length_pos_of_mem hlane)) zero_le
  have hpos : 0 < stepScore (fun _ _ => 1) initialRange m' x lane pts (pts.map f) :=
    stepScore_pos (linkWeight_allLinked_pos m) hinit hf (forall₂_map fun _ _ => one_pos)
  generalize hy : stepScore (fun _ _ => 1) initialRange m' x lane pts (pts.map f) = y at hpos
  let em : ℕ → Point ℚ → ℚ≥0 := fun b q => if q = p ∧ b = lane then 2 / y else 1
  have hem : ∀ {bs}, Choice initialRange m' bs pts →
      List.Forall₂ (fun b q => em b q = 1) bs pts := by
    intro bs hbs
    refine hbs.imp fun b q hb => if_neg ?_
    rintro ⟨rfl, rfl⟩
    exact hfar hb
  have hstar : score em initialRange m' (p :: pts) (lane :: pts.map f) = 2 := by
    rw [score, hx, mul_comm, stepScore_mul, stepScore_congr (hem hf), hy]
    have : em lane p = 2 / y := if_pos ⟨rfl, rfl⟩
    rw [this]
    exact div_mul_cancel₀ 2 hpos.ne'
  obtain ⟨r, hr, hchoice, -⟩ := h (allLinked m) em
  obtain ⟨i, path, hrun, hi, hpath, hmax⟩ := viterbi_spec (m := m') em p pts hnear
  obtain rfl := Option.some.inj (hr.symm.trans hrun)
  have hbest := hmax lane (pts.map f) hlane hf
  rw [hstar] at hbest
  by_cases hfirst : (m.getLanesNearTrajectory (p :: pts) initialRange).getD i 0 = lane
  · cases hchoice with
    | cons hin _ => exact hfar (hfirst ▸ hin)
  · have hle : score em initialRange m' (p :: pts)
        ((m.getLanesNearTrajectory (p :: pts) initialRange).getD i 0 ::
          picks (nearLists initialRange m' pts) path) ≤ x := by
      rw [score, hx]
      have : em ((m.getLanesNearTrajectory (p :: pts) initialRange).getD i 0) p = 1 :=
        if_neg fun hb => hfirst hb.2
      rw [this, mul_one]
      exact stepScore_le (choice_picks hpath) ((hem (choice_picks hpath)).imp fun _ _ h => h.le)
    have := (hbest.trans hle).trans hx1
    exact absurd this (by decide)

/-- **When the decoder is right**: for a trajectory each of whose points has a lane near
it, `viterbiAlgorithmHDMap2` is optimal under all link tables and emissions if and only if
the candidates of every point are a prefix of the candidates of the first one. -/
theorem viterbi_optimal_iff (m : HdmapImpl) (initialRange : ℚ) (p : Point ℚ) (pts : List (Point ℚ))
    (hnear : ∀ pt ∈ p :: pts, m.getLanesNearPtEnu pt initialRange ≠ []) :
    AlwaysOptimal initialRange m (p :: pts) ↔
      ∀ pt ∈ pts, m.getLanesNearPtEnu pt initialRange <+: m.getLanesNearPtEnu p initialRange := by
  constructor
  · intro h pt hpt
    obtain ⟨hpre, hnodup, -⟩ := m.getLanesNearTrajectory_spec p pts initialRange
    have hsub := lanes_subset_of_alwaysOptimal hnear h
    have hlanes := hpre.eq_of_length_le (List.subperm_of_subset hnodup hsub).length_le
    rw [hlanes]
    exact prefix_lanes_of_alwaysOptimal hnear h hpt
  · intro h links emission
    exact optimal_of_prefix (m := withTransitions m links) emission p pts hnear h

/-- Two lanes ten metres apart, the first leading to the second. -/
def twoLanes : HdmapImpl where
  lanebdyKdtree := true
  header := some ⟨true, -100, 100, -100, 100⟩
  lanesegs := [⟨some [⟨0, 0⟩, ⟨1, 0⟩], true⟩, ⟨some [⟨10, 0⟩, ⟨11, 0⟩], true⟩]
  lscTransitions := fun lane => if lane = 0 then some ⟨[1], [], []⟩ else none

theorem twoLanes_near : twoLanes.getLanesNearPtEnu ⟨0, 0⟩ 5 = [0] ∧
    twoLanes.getLanesNearPtEnu ⟨11, 0⟩ 5 = [1] ∧ twoLanes.getLanesNearPtEnu ⟨5, 0⟩ 6 = [0, 1] ∧
      twoLanes.getLanesNearPtEnu ⟨0, 0⟩ 6 = [0] := by
  decide +kernel

/-- A vehicle that comes from between the lanes to the first one. -/
theorem viterbi_optimal_iff_narrowing : AlwaysOptimal 6 twoLanes [⟨5, 0⟩, ⟨0, 0⟩] := by
  obtain ⟨-, -, hboth, hfirst⟩ := twoLanes_near
  refine (viterbi_optimal_iff twoLanes 6 ⟨5, 0⟩ [⟨0, 0⟩] ?_).mpr ?_
  · rw [List.forall_mem_cons, List.forall_mem_singleton, hboth, hfirst]
    exact ⟨List.cons_ne_nil _ _, List.cons_ne_nil _ _⟩
  · rw [List.forall_mem_singleton, hboth, hfirst]
    exact ⟨[1], rfl⟩

/-- A vehicle that moves from the first lane to the second is matched to the first lane
both times, although the first lane is not near its second position. -/
theorem viterbi_decodes_wrong_list :
    ¬ ∀ r, viterbiAlgorithmHDMap2 (fun _ _ => 1) 5 twoLanes [⟨0, 0⟩, ⟨11, 0⟩] = some r →
      OptimalDecoding (fun _ _ => 1) 5 twoLanes [⟨0, 0⟩, ⟨11, 0⟩] r := by
  intro h
  have hrun : viterbiAlgorithmHDMap2 (fun _ _ => 1) 5 twoLanes [⟨0, 0⟩, ⟨11, 0⟩] =
      some [0, 0] := by
    decide +kernel
  obtain ⟨hchoice, -⟩ := h [0, 0] hrun
  cases hchoice with
  | cons _ hrest =>
      cases hrest with
      | cons hsecond _ =>
          rw [twoLanes_near.2.1] at hsecond
          exact absurd hsecond (by decide)

end V2I.HmmLoc
