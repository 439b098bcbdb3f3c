import Mathlib.Algebra.BigOperators.Ring.List
import V2I.Hmm.Decoder.Optimal

/-!
# V2I.Hmm.Curves

Lane matching over the curves of the older map: `HMMLoc::viterbiAlgorithm` for a trajectory,
with the candidate curves of `GenerateStateFromTrajectory` for its states. The number of
candidates comes from the map, but the rows of the transition matrix are normalized over
exactly four columns, and the final maximum is taken over `num_states_` states, which the
constructor sets to two. `viterbiAlgorithm_iff` says for which maps and trajectories that is
right.
-/

namespace V2I.Hmm

/-- What the functions ask a `CivMap` for. The `exp` of a distance between two curves counts
as a positive weight, the distance of a point as its emission probability. -/
structure CivMap (C P : Type) where
  /-- `get_curves_enu()` -/
  curvesEnu : List C
  /-- the number `stoi` reads from the id of a curve -/
  id : C → ℤ
  /-- is the curve closer to the point than `near_threshold_`? -/
  near : P → C → Bool
  weight : C → C → ℚ≥0
  weight_pos : ∀ a b, 0 < weight a b
  emission : C → P → ℚ≥0

variable {C P : Type}

/-- `num_states_` -/
def numStates : ℕ := 2

namespace CivMap

variable (m : CivMap C P)

/-- `get_lanes_near_enu(pt, near_threshold_)` -/
def getLanesNearEnu (pt : P) : List C := m.curvesEnu.filter (m.near pt)

/-- `set_curves.insert(curve)`: the set is sorted by id and keeps the first curve of an id. -/
def insertCurve (curve : C) : List C → List C
  | [] => [curve]
  | c :: set =>
      if m.id curve = m.id c then c :: set
      else if m.id curve < m.id c then curve :: c :: set
      else c :: insertCurve curve set

/-- `GenerateStateFromTrajectory(observations)` -/
def generateStateFromTrajectory (observations : List P) : List C :=
  observations.foldl
    (fun set pt => (m.getLanesNearEnu pt).foldl (fun set curve => m.insertCurve curve set) set) []

/-- Divide `block<1, 4>(i, 0)` of a row by its sum; the row must have four columns. -/
def normalizeBlock (row : List ℚ≥0) : Option (List ℚ≥0) :=
  if row.length < 4 then none
  else some ((row.take 4).map (· / (row.take 4).sum) ++ row.drop 4)

/-- A row before it is normalized. -/
def weightRow (states : List C) (a : C) (i : ℕ) : List ℚ≥0 :=
  states.zipIdx.map fun x => if i = x.2 then 1 else m.weight a x.1

/-- `CalculateTransitionalProbability(states)` -/
def calculateTransitionalProbability (states : List C) : Option (List (List ℚ≥0)) :=
  states.zipIdx.mapM fun x => normalizeBlock (m.weightRow states x.1 x.2)

/-- `HMMLoc::viterbiAlgorithm(observations)` -/
def viterbiAlgorithm (observations : List P) : Option (List C) := do
  let states := m.generateStateFromTrajectory observations
  let transitionMatrix ← m.calculateTransitionalProbability states
  let bestPath ← decode (fun s => (HmmLoc.initialProbs states.length)[s]?) (coeff transitionMatrix)
    (fun s pt => (states[s]?).map (m.emission · pt)) states.length numStates observations
  bestPath.mapM fun idx => states[idx]?

/-! ## What the function should find -/

/-- The transition probability between two states, from the matrix of the code. -/
def transition (states : List C) (i j : ℕ) : ℚ≥0 :=
  ((m.calculateTransitionalProbability states).bind fun matrix => coeff matrix i j).getD 0

/-- The emission probability of a point in a state. -/
def emissionAt (states : List C) (s : ℕ) (pt : P) : ℚ≥0 :=
  ((states[s]?).map (m.emission · pt)).getD 0

/-- Every row of the matrix sums to 1. -/
def RowStochastic (states : List C) : Prop :=
  ∃ matrix, m.calculateTransitionalProbability states = some matrix ∧
    matrix.length = states.length ∧ ∀ row ∈ matrix, row.length = states.length ∧ row.sum = 1

/-- The product of the initial, transition and emission probabilities of a state sequence. -/
def pathProduct (states : List C) (observations : List P) (path : List ℕ) : ℚ≥0 :=
  product (m.transition states) (m.emissionAt states) (fun _ => 1 / states.length) observations path

/-- The function returns a sequence of states with the largest product. -/
def DecodesOptimally (states : List C) (observations : List P) : Prop :=
  ∃ path r, IsPath states.length observations path ∧
    path.mapM (fun s => states[s]?) = some r ∧ m.viterbiAlgorithm observations = some r ∧
    ∀ path', IsPath states.length observations path' →
      m.pathProduct states observations path' ≤ m.pathProduct states observations path

/-! ## The states -/

theorem mem_insertCurve {curve c : C} {set : List C} (h : c ∈ m.insertCurve curve set) :
    c = curve ∨ c ∈ set := by
  induction set with
  | nil => simpa [insertCurve] using h
  | cons d set ih =>
      rw [insertCurve] at h
      split_ifs at h
      · exact Or.inr h
      · simpa using h
      · rcases List.mem_cons.mp h with rfl | h
        · exact Or.inr List.mem_cons_self
        · exact (ih h).imp_right (List.mem_cons_of_mem _)

theorem sorted_insertCurve (curve : C) {set : List C}
    (h : set.Pairwise fun a b => m.id a < m.id b) :
    (m.insertCurve curve set).Pairwise fun a b => m.id a < m.id b := by
  induction set with
  | nil => simp [insertCurve]
  | cons c set ih =>
      obtain ⟨hc, hset⟩ := List.pairwise_cons.mp h
      rw [insertCurve]
      split_ifs with heq hlt
      · exact h
      · refine List.pairwise_cons.mpr ⟨fun d hd => ?_, h⟩
        rcases List.mem_cons.mp hd with rfl | hd
        · exact hlt
        · exact hlt.trans (hc d hd)
      · refine List.pairwise_cons.mpr ⟨fun d hd => ?_, ih hset⟩
        rcases m.mem_insertCurve hd with rfl | hd
        · exact lt_of_le_of_ne (not_lt.mp hlt) (Ne.symm heq)
        · exact hc d hd

/-- The states are curves with distinct ids. -/
theorem nodup_generateStateFromTrajectory (observations : List P) :
    (m.generateStateFromTrajectory observations).Nodup := by
  have hcurves : ∀ (l set : List C), set.Pairwise (fun a b => m.id a < m.id b) →
      (l.foldl (fun set curve => m.insertCurve curve set) set).Pairwise
        fun a b => m.id a < m.id b := by
    intro l
    induction l with
    | nil => exact fun _ h => h
    | cons curve l ih => exact fun set h => ih _ (m.sorted_insertCurve curve h)
  have hsorted : ∀ set : List C, set.Pairwise (fun a b => m.id a < m.id b) →
      (observations.foldl (fun set pt => (m.getLanesNearEnu pt).foldl
        (fun set curve => m.insertCurve curve set) set) set).Pairwise
          fun a b => m.id a < m.id b := by
    induction observations with
    | nil => exact fun _ h => h
    | cons pt pts ih => exact fun set h => ih _ (hcurves _ set h)
  refine (hsorted [] List.Pairwise.nil).imp fun {a b} hlt heq => ?_
  exact absurd (heq ▸ hlt) (lt_irrefl _)

/-! ## The transition matrix -/

theorem length_weightRow (states : List C) (a : C) (i : ℕ) :
    (m.weightRow states a i).length = states.length := by
  simp [weightRow]

variable {states : List C}

theorem weightRow_pos {a : C} {i : ℕ} {x : ℚ≥0} (hx : x ∈ m.weightRow states a i) : 0 < x := by
  obtain ⟨y, -, rfl⟩ := List.mem_map.mp hx
  split_ifs
  · exact one_pos
  · exact m.weight_pos a y.1

/-- The first four columns of a normalized row sum to 1; the others stay. -/
theorem normalizeBlock_spec (row : List ℚ≥0) (hlen : 4 ≤ row.length) (hpos : ∀ x ∈ row, 0 < x) :
    ∃ row', normalizeBlock row = some row' ∧ row'.length = row.length ∧
      row'.sum = 1 + (row.drop 4).sum := by
  have hsum : 0 < (row.take 4).sum := by
    refine List.sum_pos _ (fun x hx => hpos x (List.mem_of_mem_take hx)) fun hnil => ?_
    have hzero := congrArg List.length hnil
    rw [List.length_take, List.length_nil] at hzero
    omega
  refine ⟨_, if_neg (not_lt.mpr hlen), ?_, ?_⟩
  · simp
    omega
  · simp only [div_eq_mul_inv]
    rw [List.sum_append, List.sum_map_mul_right, List.map_id', mul_inv_cancel₀ hsum.ne']

/-- From four states on there is a matrix, and its rows sum to 1 in the first four columns. -/
theorem calculateTransitionalProbability_spec (hlen : 4 ≤ states.length) :
    ∃ matrix, m.calculateTransitionalProbability states = some matrix ∧
      matrix.length = states.length ∧ ∀ row ∈ matrix, ∃ a i, row.length = states.length ∧
        row.sum = 1 + ((m.weightRow states a i).drop 4).sum := by
  have hrow := fun a i => normalizeBlock_spec (m.weightRow states a i)
    (hlen.trans_eq (m.length_weightRow states a i).symm) fun x hx => m.weightRow_pos hx
  choose row' hnorm hlen' hsum using hrow
  refine ⟨_, mapM_eq_some_map fun x _ => hnorm x.1 x.2, by simp, fun row hmem => ?_⟩
  obtain ⟨x, -, rfl⟩ := List.mem_map.mp hmem
  exact ⟨x.1, x.2, (hlen' x.1 x.2).trans (m.length_weightRow _ _ _), hsum x.1 x.2⟩

/-- With fewer than four states the block does not fit into a row. -/
theorem calculateTransitionalProbability_of_lt (hne : states ≠ []) (hlen : states.length < 4) :
    m.calculateTransitionalProbability states = none := by
  obtain ⟨a, rest, rfl⟩ := List.exists_cons_of_ne_nil hne
  rw [calculateTransitionalProbability, List.zipIdx_cons, List.mapM_cons, normalizeBlock,
    if_pos (by rwa [length_weightRow])]
  rfl

/-- The matrix is row-stochastic just for four states. -/
theorem rowStochastic_iff (hne : states ≠ []) : m.RowStochastic states ↔ states.length = 4 := by
  have hpos : 0 < states.length := List.length_pos_iff.mpr hne
  constructor
  · rintro ⟨matrix, hmatrix, hrows, hsum⟩
    by_cases hlt : states.length < 4
    · rw [m.calculateTransitionalProbability_of_lt hne hlt] at hmatrix
      cases hmatrix
    · obtain ⟨matrix', hmatrix', -, hsum'⟩ :=
        m.calculateTransitionalProbability_spec (not_lt.mp hlt)
      obtain rfl := Option.some_inj.mp (hmatrix.symm.trans hmatrix')
      have hfirst : matrix[0] ∈ matrix := List.getElem_mem (hrows.symm ▸ hpos)
      obtain ⟨a, i, -, hrow⟩ := hsum' _ hfirst
      rw [(hsum _ hfirst).2] at hrow
      -- what is left behind the block adds to the 1 of the block
      have hrest : ((m.weightRow states a i).drop 4).sum = 0 := by simpa using hrow.symm
      by_contra hne4
      refine (List.sum_pos _ (fun x hx => m.weightRow_pos (List.mem_of_mem_drop hx)) ?_).ne' hrest
      intro hnil
      have hlen := congrArg List.length hnil
      rw [List.length_drop, length_weightRow, List.length_nil] at hlen
      omega
  · intro hlen
    obtain ⟨matrix, hmatrix, hrows, hsum⟩ := m.calculateTransitionalProbability_spec hlen.ge
    refine ⟨matrix, hmatrix, hrows, fun row hrow => ?_⟩
    obtain ⟨a, i, hcols, hrow⟩ := hsum row hrow
    refine ⟨hcols, ?_⟩
    rw [hrow, List.drop_of_length_le (by rw [length_weightRow, hlen]), List.sum_nil, add_zero]

/-! ## The decoder -/

/-- The parameters that the decoder reads. -/
theorem reads {matrix : List (List ℚ≥0)}
    (hmatrix : m.calculateTransitionalProbability states = some matrix)
    (hrows : matrix.length = states.length) (hcols : ∀ row ∈ matrix, row.length = states.length)
    (observations : List P) :
    Reads states.length (coeff matrix) (fun s pt => (states[s]?).map (m.emission · pt))
      (m.transition states) (m.emissionAt states) observations where
  trans i hi j hj := by
    rw [transition, hmatrix, Option.bind_some, coeff_eq hrows hcols hi hj, Option.getD_some]
  emit s hs pt _ := by
    rw [emissionAt, List.getElem?_eq_getElem hs, Option.map_some, Option.getD_some]

/-- **What the function returns** for four states: a sequence with the largest product among
those that end in one of the first two. -/
theorem viterbiAlgorithm_spec {observations : List P}
    (hstates : m.generateStateFromTrajectory observations = states) (hlen : states.length = 4) :
    ∃ path r, m.viterbiAlgorithm observations = some r ∧
      path.mapM (fun s => states[s]?) = some r ∧ IsPath states.length observations path ∧
      (∀ i ∈ path.getLast?, i < numStates) ∧ ∀ path', IsPath states.length observations path' →
        (∀ i ∈ path'.getLast?, i < numStates) →
        m.pathProduct states observations path' ≤ m.pathProduct states observations path := by
  have hne : observations ≠ [] := by
    rintro rfl
    rw [← hstates] at hlen
    cases hlen
  obtain ⟨matrix, hmatrix, hrows, hsum⟩ := m.calculateTransitionalProbability_spec hlen.ge
  have hcols : ∀ row ∈ matrix, row.length = states.length := fun row hrow => by
    obtain ⟨a, i, hcols, -⟩ := hsum row hrow
    exact hcols
  have hfinal : 0 < numStates := by decide
  have hle : numStates ≤ states.length := hlen ▸ by decide
  obtain ⟨path, hdecode, hpath, hlast, hmax⟩ := decode_spec
    (m.reads hmatrix hrows hcols observations) (fun _ hs => initialProbs_getElem? hs) hne
    hfinal hle
  obtain ⟨r, hr⟩ := mapM_getElem?_eq_some hpath.2
  refine ⟨path, r, ?_, hr, hpath, hlast, hmax⟩
  simp only [viterbiAlgorithm, hstates, hmatrix, Option.bind_eq_bind, Option.bind_some, hdecode, hr]

/-- **When the function is right**: the matrix is row-stochastic and the result a most
probable sequence just when there are four candidate curves and no sequence that ends in the
third or the fourth of them beats all those that end in the first or the second. -/
theorem viterbiAlgorithm_iff (observations : List P)
    (hne : m.generateStateFromTrajectory observations ≠ []) :
    (m.RowStochastic (m.generateStateFromTrajectory observations) ∧
        m.DecodesOptimally (m.generateStateFromTrajectory observations) observations) ↔
      (m.generateStateFromTrajectory observations).length = 4 ∧
        ∀ path', IsPath 4 observations path' → (∃ i ∈ path'.getLast?, 2 ≤ i) →
          ∃ path, IsPath 4 observations path ∧ (∀ i ∈ path.getLast?, i < 2) ∧
            m.pathProduct (m.generateStateFromTrajectory observations) observations path' ≤
              m.pathProduct (m.generateStateFromTrajectory observations) observations path := by
  have hnodup := m.nodup_generateStateFromTrajectory observations
  rw [m.rowStochastic_iff hne]
  generalize hstates : m.generateStateFromTrajectory observations = states at *
  refine and_congr_right fun hlen => ?_
  obtain ⟨path, r, hrun, hr, hpath, hlast, hmax⟩ := m.viterbiAlgorithm_spec hstates hlen
  rw [hlen] at hpath hmax
  constructor
  · rintro ⟨path₀, r₀, -, hr₀, hrun₀, hbest⟩ path' hpath' -
    obtain rfl := Option.some_inj.mp (hrun.symm.trans hrun₀)
    obtain rfl := mapM_getElem?_inj hnodup hr hr₀
    rw [hlen] at hbest
    exact ⟨path, hpath, hlast, hbest path' hpath'⟩
  · intro hcond
    refine ⟨path, r, by rwa [hlen], hr, hrun, fun path' hpath' => ?_⟩
    rw [hlen] at hpath'
    by_cases hend : ∃ i ∈ path'.getLast?, 2 ≤ i
    · obtain ⟨path'', hpath'', hlast'', hle⟩ := hcond path' hpath' hend
      exact hle.trans (hmax path'' hpath'' hlast'')
    · refine hmax path' hpath' fun i hi => ?_
      by_contra hge
      exact hend ⟨i, hi, not_lt.mp hge⟩

/-- Parallel curves that are all near a single point; the first one fits it best. -/
def parallelCurves (n : ℕ) : CivMap ℕ Unit where
  curvesEnu := List.range n
  id c := c
  near _ _ := true
  weight _ _ := 1
  weight_pos _ _ := one_pos
  emission c _ := if c = 0 then 1 else 0

theorem viterbiAlgorithm_iff_parallel :
    (parallelCurves 4).RowStochastic ((parallelCurves 4).generateStateFromTrajectory [()]) ∧
      (parallelCurves 4).DecodesOptimally ((parallelCurves 4).generateStateFromTrajectory [()])
        [()] := by
  refine ((parallelCurves 4).viterbiAlgorithm_iff [()] (by decide)).mpr
    ⟨by decide, fun path' hpath' hend => ⟨[0], ⟨rfl, by decide⟩, by decide, ?_⟩⟩
  obtain ⟨hlen, hlt⟩ := hpath'
  obtain ⟨i, rfl⟩ := List.length_eq_one_iff.mp hlen
  have hi : i < 4 := hlt i List.mem_cons_self
  have hge : 2 ≤ i := by simpa using hend
  have hzero : (parallelCurves 4).emissionAt
      ((parallelCurves 4).generateStateFromTrajectory [()]) i () = 0 := by
    obtain rfl | rfl : i = 2 ∨ i = 3 := by omega
    · rfl
    · rfl
  simp [pathProduct, product, stepProduct, hzero]

/-- With five candidate curves the rows do not sum to 1. -/
theorem viterbiAlgorithm_counterexample :
    ¬ ((parallelCurves 5).RowStochastic ((parallelCurves 5).generateStateFromTrajectory [()]) ∧
      (parallelCurves 5).DecodesOptimally ((parallelCurves 5).generateStateFromTrajectory [()])
        [()]) := by
  rintro ⟨hrows, -⟩
  exact absurd (((parallelCurves 5).rowStochastic_iff (by decide)).mp hrows) (by decide)

end CivMap

end V2I.Hmm
