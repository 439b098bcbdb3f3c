import Mathlib.Algebra.Order.Ring.Defs
import Mathlib.Data.Fintype.Card

/-!
# V2I.Fusion.Km

The Kuhn-Munkres matcher of the fusion service (`KMkernal`): `GetKMResult` inserts the rows
of the association matrix one after the other, each by a depth-first search for an
augmenting path over the tight edges (`FindCP`), lowering and raising the labels by the
least slack whenever the search fails.

Rows are `u`, columns are `v`.  The numbers are of any ordered type with `+` and `-`, which may
round; the weights are those of the matrix, so `static_cast<float>` changes none of them.
`match_cps` keeps the `-1` of the source as an `Int`.  Both loops of the source that are not
bounded by a counter (the `while (1)` and the recursion of `FindCP`) take a fuel argument; `none`
is "not finished".
-/

namespace V2I.Km

variable {n m : Nat} {K : Type*}

/-- `USR_INF`. -/
def usrInf (K : Type*) [NatCast K] : K := ((999999999999 : Nat) : K)

/-- The members of `KMkernal`: labels, matching, slacks and the two visited sets.  A `-1`
of `v_matched_` is `none`. -/
structure KMkernal (n m : Nat) (K : Type*) where
  exU : Fin n → K
  exV : Fin m → K
  vMatched : Fin m → Option (Fin n)
  vSlack : Fin m → K
  usedU : Finset (Fin n)
  usedV : Finset (Fin m)

variable [Zero K] [Add K] [Sub K] [NatCast K] [LinearOrder K]

/-- `gap` of an edge under the current labels. -/
def KMkernal.gap (k : KMkernal n m K) (mat : Fin n → Fin m → K) (i : Fin n) (j : Fin m) : K :=
  k.exU i + k.exV j - mat i j

/-- The `for` loop of `FindCP` over the columns not yet looked at; `rec` is the recursive
call. -/
def findCPLoop (mat : Fin n → Fin m → K)
    (rec : KMkernal n m K → Fin n → Option (Bool × KMkernal n m K)) (i : Fin n) :
    List (Fin m) → KMkernal n m K → Option (Bool × KMkernal n m K)
  | [], k => some (false, k)
  | j :: js, k =>
      if j ∈ k.usedV then findCPLoop mat rec i js k
      else if k.gap mat i j ≤ 0 then
        let k := { k with usedV := insert j k.usedV }
        match k.vMatched j with
        | none => some (true, { k with vMatched := Function.update k.vMatched j (some i) })
        | some u =>
            match rec k u with
            | none => none
            | some (true, k) =>
                some (true, { k with vMatched := Function.update k.vMatched j (some i) })
            | some (false, k) => findCPLoop mat rec i js k
      else
        findCPLoop mat rec i js
          { k with vSlack := Function.update k.vSlack j (min (k.vSlack j) (k.gap mat i j)) }

/-- `FindCP`. -/
def findCP (mat : Fin n → Fin m → K) :
    Nat → KMkernal n m K → Fin n → Option (Bool × KMkernal n m K)
  | 0, _, _ => none
  | fuel + 1, k, i =>
      findCPLoop mat (findCP mat fuel) i (List.finRange m) { k with usedU := insert i k.usedU }

/-- The `d` of a failed search: the least slack of the unused columns, from `USR_INF` down. -/
def leastSlack (k : KMkernal n m K) : K :=
  (List.finRange m).foldl (fun d j => if j ∈ k.usedV then d else min d (k.vSlack j)) (usrInf K)

/-- The label change of a failed search. -/
def relabel (k : KMkernal n m K) : KMkernal n m K :=
  let d := leastSlack k
  { k with
    exU := fun i => if i ∈ k.usedU then k.exU i - d else k.exU i
    exV := fun j => if j ∈ k.usedV then k.exV j + d else k.exV j
    vSlack := fun j => if j ∈ k.usedV then k.vSlack j else k.vSlack j - d }

/-- The `while (1)` for row `i`, `fuel` bounding its iterations and the depth of each
search. -/
def insertRow (mat : Fin n → Fin m → K) (fuel : Nat) :
    Nat → KMkernal n m K → Fin n → Option (KMkernal n m K)
  | 0, _, _ => none
  | iter + 1, k, i =>
      match findCP mat fuel { k with usedU := ∅, usedV := ∅ } i with
      | none => none
      | some (true, k) => some k
      | some (false, k) => insertRow mat fuel iter (relabel k) i

/-- The row maximum that `ex_u_[i]` starts from. -/
def rowMax (mat : Fin n → Fin m → K) (i : Fin n) : K :=
  match List.finRange m with
  | [] => 0
  | j :: js => js.foldl (fun x j => max x (mat i j)) (mat i j)

/-- The loop over the rows: a row without a positive weight is reported unmatched, every
other one is inserted with fresh slacks. -/
def insertRows (mat : Fin n → Fin m → K) (fuel : Nat) (needReverse : Bool) :
    List (Fin n) → KMkernal n m K → Option (KMkernal n m K × List (Int × Int))
  | [], k => some (k, [])
  | i :: is, k =>
      if k.exU i ≤ 0 then
        match insertRows mat fuel needReverse is k with
        | none => none
        | some (k, cps) => some (k, (if needReverse then (-1, (i : Int)) else ((i : Int), -1)) :: cps)
      else
        match insertRow mat fuel fuel { k with vSlack := fun _ => usrInf K } i with
        | none => none
        | some k => insertRows mat fuel needReverse is k

/-- What the final loop pushes for column `j`. -/
def columnEntries (mat : Fin n → Fin m → K) (needReverse : Bool)
    (vMatched : Fin m → Option (Fin n)) (j : Fin m) : List (Int × Int) :=
  if needReverse then
    match vMatched j with
    | none => [((j : Int), -1)]
    | some i => if mat i j > 0 then [((j : Int), (i : Int))] else [(-1, (i : Int)), ((j : Int), -1)]
  else
    match vMatched j with
    | none => [(-1, (j : Int))]
    | some i => if mat i j > 0 then [((i : Int), (j : Int))] else [((i : Int), -1), (-1, (j : Int))]

/-- The state after the allocations and the initial labels. -/
def initial (mat : Fin n → Fin m → K) : KMkernal n m K where
  exU := rowMax mat
  exV := fun _ => 0
  vMatched := fun _ => none
  vSlack := fun _ => usrInf K
  usedU := ∅
  usedV := ∅

/-- `GetKMResult`: the return value and `match_cps`. -/
def getKMResult (fuel : Nat) (mat : Fin n → Fin m → K) (needReverse : Bool) :
    Option (Bool × List (Int × Int)) :=
  if n > m then some (false, [])
  else
    match insertRows mat fuel needReverse (List.finRange n) (initial mat) with
    | none => none
    | some (k, cps) =>
        some (true, cps ++ (List.finRange m).flatMap (columnEntries mat needReverse k.vMatched))

end V2I.Km

/-!
## One search

What one call of `FindCP` does under fixed labels.

* When it fails it has explored an alternating tree: `Explored` says that only visited sets
  and slacks have changed, that what was visited is reachable over tight edges (`Reach`),
  and that every row visited has been scanned to the end.
* When it succeeds it has flipped an augmenting path: `Augmented` says that the columns not
  visited before the call are now matched to their former rows and the new one.

`findCP_spec` proves that one of the two happens whenever the fuel exceeds the number of
columns not yet visited: each nested call visits a column of its own.
-/

namespace V2I.Km

variable {n m : Nat} {K : Type*} [Zero K] [Add K] [Sub K] [LinearOrder K]
variable {mat : Fin n → Fin m → K} {k k₁ k₂ : KMkernal n m K} {r i u : Fin n}

/-! ## failed searches -/

/-- The rows reachable from row `r` by alternating between tight edges and the edges of the
matching. -/
inductive Reach (mat : Fin n → Fin m → K) (k : KMkernal n m K) (r : Fin n) : Fin n → Prop
  | root : Reach mat k r r
  | step {u u' : Fin n} {j : Fin m} : Reach mat k r u → k.gap mat u j ≤ 0 →
      k.vMatched j = some u' → Reach mat k r u'

/-- Labels and matching are the same. -/
structure SameLabels (k k' : KMkernal n m K) : Prop where
  exU : k'.exU = k.exU
  exV : k'.exV = k.exV

omit [Zero K] [LinearOrder K] in
theorem SameLabels.gap (h : SameLabels k k₁) (i : Fin n) (j : Fin m) :
    k₁.gap mat i j = k.gap mat i j := by
  rw [KMkernal.gap, KMkernal.gap, h.exU, h.exV]

omit [Zero K] [Add K] [Sub K] [LinearOrder K] in
theorem SameLabels.trans (h : SameLabels k k₁) (h' : SameLabels k₁ k₂) : SameLabels k k₂ :=
  ⟨h'.exU.trans h.exU, h'.exV.trans h.exV⟩

theorem Reach.congr (hu : Reach mat k r u) (h : SameLabels k k₁)
    (hm : k₁.vMatched = k.vMatched) : Reach mat k₁ r u := by
  induction hu with
  | root => exact Reach.root
  | step _ hgap hmate ih => exact Reach.step ih (by rw [h.gap]; exact hgap) (by rw [hm]; exact hmate)

/-- Row `u` has been scanned to the end: each column is visited, or its edge is not tight
and its slack accounts for it. -/
def Scanned (mat : Fin n → Fin m → K) (k : KMkernal n m K) (u : Fin n) (j : Fin m) : Prop :=
  j ∈ k.usedV ∨ 0 < k.gap mat u j ∧ k.vSlack j ≤ k.gap mat u j

/-- From `k` to `k'` the search has only explored: `r` is the row the whole search is for. -/
structure Explored (mat : Fin n → Fin m → K) (r : Fin n) (k k' : KMkernal n m K) : Prop where
  same : SameLabels k k'
  matched : k'.vMatched = k.vMatched
  usedU : k.usedU ⊆ k'.usedU
  usedV : k.usedV ⊆ k'.usedV
  scanned : ∀ u ∈ k'.usedU, u ∉ k.usedU → ∀ j, Scanned mat k' u j
  mates : ∀ j ∈ k'.usedV, j ∉ k.usedV → ∃ u ∈ k'.usedU, k.vMatched j = some u
  reachU : ∀ u ∈ k'.usedU, u ∉ k.usedU → Reach mat k r u
  reachV : ∀ j ∈ k'.usedV, j ∉ k.usedV → ∃ u, Reach mat k r u ∧ k.gap mat u j ≤ 0
  slack_le : ∀ j, k'.vSlack j ≤ k.vSlack j
  slack_eq : ∀ j, k'.vSlack j = k.vSlack j ∨
    ∃ u, Reach mat k r u ∧ 0 < k.gap mat u j ∧ k'.vSlack j = k.gap mat u j

theorem Explored.refl (mat : Fin n → Fin m → K) (r : Fin n) (k : KMkernal n m K) :
    Explored mat r k k where
  same := ⟨rfl, rfl⟩
  matched := rfl
  usedU := Finset.Subset.refl _
  usedV := Finset.Subset.refl _
  scanned := fun _ h h' => absurd h h'
  mates := fun _ h h' => absurd h h'
  reachU := fun _ h h' => absurd h h'
  reachV := fun _ h h' => absurd h h'
  slack_le := fun _ => le_refl _
  slack_eq := fun _ => Or.inl rfl

/-- What is scanned stays scanned. -/
theorem Scanned.mono (h : Explored mat r k k₁) (hs : Scanned mat k u j) : Scanned mat k₁ u j := by
  rcases hs with hj | ⟨hgap, hle⟩
  · exact Or.inl (h.usedV hj)
  · refine Or.inr ?_
    rw [h.same.gap]
    exact ⟨hgap, le_trans (h.slack_le j) hle⟩

theorem Explored.trans (h : Explored mat r k k₁) (h' : Explored mat r k₁ k₂) :
    Explored mat r k k₂ where
  same := h.same.trans h'.same
  matched := h'.matched.trans h.matched
  usedU := h.usedU.trans h'.usedU
  usedV := h.usedV.trans h'.usedV
  scanned := fun u hu hk j => by
    by_cases h1 : u ∈ k₁.usedU
    · exact (h.scanned u h1 hk j).mono h'
    · exact h'.scanned u hu h1 j
  mates := fun j hj hk => by
    by_cases h1 : j ∈ k₁.usedV
    · obtain ⟨u, hu, hm⟩ := h.mates j h1 hk
      exact ⟨u, h'.usedU hu, hm⟩
    · obtain ⟨u, hu, hm⟩ := h'.mates j hj h1
      exact ⟨u, hu, by rw [← h.matched]; exact hm⟩
  reachU := fun u hu hk => by
    by_cases h1 : u ∈ k₁.usedU
    · exact h.reachU u h1 hk
    · exact (h'.reachU u hu h1).congr ⟨h.same.exU.symm, h.same.exV.symm⟩ h.matched.symm
  reachV := fun j hj hk => by
    by_cases h1 : j ∈ k₁.usedV
    · exact h.reachV j h1 hk
    · obtain ⟨u, hu, hgap⟩ := h'.reachV j hj h1
      exact ⟨u, hu.congr ⟨h.same.exU.symm, h.same.exV.symm⟩ h.matched.symm,
        by rw [← h.same.gap]; exact hgap⟩
  slack_le := fun j => le_trans (h'.slack_le j) (h.slack_le j)
  slack_eq := fun j => by
    rcases h'.slack_eq j with hj | ⟨u, hu, hpos, hj⟩
    · rcases h.slack_eq j with hj' | ⟨u, hu, hpos, hj'⟩
      · exact Or.inl (hj.trans hj')
      · exact Or.inr ⟨u, hu, hpos, hj.trans hj'⟩
    · rw [h.same.gap] at hpos hj
      exact Or.inr ⟨u, hu.congr ⟨h.same.exU.symm, h.same.exV.symm⟩ h.matched.symm, hpos, hj⟩

/-- Lowering one slack to the gap of a reachable row is an exploration. -/
theorem Explored.lowerSlack (hr : Reach mat k r i) (hgap : 0 < k.gap mat i j) :
    Explored mat r k
      { k with vSlack := Function.update k.vSlack j (min (k.vSlack j) (k.gap mat i j)) } where
  same := ⟨rfl, rfl⟩
  matched := rfl
  usedU := Finset.Subset.refl _
  usedV := Finset.Subset.refl _
  scanned := fun _ h h' => absurd h h'
  mates := fun _ h h' => absurd h h'
  reachU := fun _ h h' => absurd h h'
  reachV := fun _ h h' => absurd h h'
  slack_le := fun j' => by
    by_cases hj : j' = j
    · subst hj; simp
    · simp [Function.update_of_ne hj]
  slack_eq := fun j' => by
    by_cases hj : j' = j
    · subst hj
      rcases min_choice (k.vSlack j') (k.gap mat i j') with hmin | hmin
      · exact Or.inl (by simp [hmin])
      · exact Or.inr ⟨i, hr, hgap, by simp [hmin]⟩
    · exact Or.inl (by simp [Function.update_of_ne hj])

/-- Visiting column `j` over a tight edge and then exploring from its mate. -/
theorem Explored.visit (hr : Reach mat k r i) (hgap : k.gap mat i j ≤ 0)
    (hmate : k.vMatched j = some u) (h : Explored mat r { k with usedV := insert j k.usedV } k₁)
    (hu : u ∈ k₁.usedU) : Explored mat r k k₁ where
  same := ⟨h.same.exU, h.same.exV⟩
  matched := h.matched
  usedU := h.usedU
  usedV := (Finset.subset_insert j k.usedV).trans h.usedV
  scanned := h.scanned
  mates := fun j' hj' hk => by
    by_cases hj : j' = j
    · subst hj; exact ⟨u, hu, hmate⟩
    · exact h.mates j' hj' (by simp [hj, hk])
  reachU := fun u' hu' hk => (h.reachU u' hu' hk).congr ⟨rfl, rfl⟩ rfl
  reachV := fun j' hj' hk => by
    by_cases hj : j' = j
    · subst hj; exact ⟨i, hr, hgap⟩
    · obtain ⟨u', hu', hg⟩ := h.reachV j' hj' (by simp [hj, hk])
      exact ⟨u', hu'.congr ⟨rfl, rfl⟩ rfl, hg⟩
  slack_le := h.slack_le
  slack_eq := fun j' => by
    rcases h.slack_eq j' with hj | ⟨u', hu', hpos, hj⟩
    · exact Or.inl hj
    · exact Or.inr ⟨u', hu'.congr ⟨rfl, rfl⟩ rfl, hpos, hj⟩

/-! ## successful searches -/

/-- The columns not yet visited are matched to different rows, none of which is `i`. -/
structure Free (k : KMkernal n m K) (i : Fin n) : Prop where
  inj : ∀ j j' u, j ∉ k.usedV → j' ∉ k.usedV → k.vMatched j = some u →
    k.vMatched j' = some u → j = j'
  fresh : ∀ j, j ∉ k.usedV → k.vMatched j ≠ some i

/-- From `k` to `k'` row `i` has been matched by flipping a path through columns not
visited in `k`. -/
structure Augmented (mat : Fin n → Fin m → K) (k : KMkernal n m K) (i : Fin n)
    (k' : KMkernal n m K) : Prop where
  same : SameLabels k k'
  visited : ∀ j ∈ k.usedV, k'.vMatched j = k.vMatched j
  inj : ∀ j j' u, j ∉ k.usedV → j' ∉ k.usedV → k'.vMatched j = some u →
    k'.vMatched j' = some u → j = j'
  rows : ∀ u, (∃ j, j ∉ k.usedV ∧ k'.vMatched j = some u) ↔
    u = i ∨ ∃ j, j ∉ k.usedV ∧ k.vMatched j = some u
  kept : ∀ j, k.vMatched j ≠ none → k'.vMatched j ≠ none
  tight : ∀ j u, k'.vMatched j = some u → k.vMatched j = some u ∨ k.gap mat u j ≤ 0

/-- A search that explores first and then succeeds has succeeded from the start. -/
theorem Augmented.of_explored (h : Explored mat r k k₁) (hf : Free k i)
    (ha : Augmented mat k₁ i k₂) : Augmented mat k i k₂ where
  same := h.same.trans ha.same
  visited := fun j hj => by rw [ha.visited j (h.usedV hj), h.matched]
  inj := fun j j' u hj hj' hm hm' => by
    -- A column visited meanwhile keeps its mate, so the mate is a former one on its side.
    have former : ∀ j, j ∉ k.usedV → j ∈ k₁.usedV → k₂.vMatched j = some u →
        ∀ j', j' ∉ k₁.usedV → k₂.vMatched j' = some u → False := by
      intro j hj h1 hm j' h1' hm'
      rw [ha.visited j h1, h.matched] at hm
      rcases (ha.rows u).mp ⟨j', h1', hm'⟩ with rfl | ⟨j'', h1'', hm''⟩
      · exact hf.fresh j hj hm
      · rw [h.matched] at hm''
        have hjj := hf.inj j j'' u hj (fun hk => h1'' (h.usedV hk)) hm hm''
        exact h1'' (hjj ▸ h1)
    by_cases h1 : j ∈ k₁.usedV
    · by_cases h1' : j' ∈ k₁.usedV
      · rw [ha.visited j h1, h.matched] at hm
        rw [ha.visited j' h1', h.matched] at hm'
        exact hf.inj j j' u hj hj' hm hm'
      · exact (former j hj h1 hm j' h1' hm').elim
    · by_cases h1' : j' ∈ k₁.usedV
      · exact (former j' hj' h1' hm' j h1 hm).elim
      · exact ha.inj j j' u h1 h1' hm hm'
  rows := fun u => by
    constructor
    · rintro ⟨j, hj, hm⟩
      by_cases h1 : j ∈ k₁.usedV
      · rw [ha.visited j h1, h.matched] at hm
        exact Or.inr ⟨j, hj, hm⟩
      · rcases (ha.rows u).mp ⟨j, h1, hm⟩ with hu | ⟨j', h1', hm'⟩
        · exact Or.inl hu
        · exact Or.inr ⟨j', fun hk => h1' (h.usedV hk), by rw [← h.matched]; exact hm'⟩
    · rintro (rfl | ⟨j, hj, hm⟩)
      · obtain ⟨j, h1, hm⟩ := (ha.rows u).mpr (Or.inl rfl)
        exact ⟨j, fun hk => h1 (h.usedV hk), hm⟩
      · by_cases h1 : j ∈ k₁.usedV
        · exact ⟨j, hj, by rw [ha.visited j h1, h.matched]; exact hm⟩
        · obtain ⟨j', h1', hm'⟩ :=
            (ha.rows u).mpr (Or.inr ⟨j, h1, by rw [h.matched]; exact hm⟩)
          exact ⟨j', fun hk => h1' (h.usedV hk), hm'⟩
  kept := fun j hj => ha.kept j (by rw [h.matched]; exact hj)
  tight := fun j u hm => by
    rcases ha.tight j u hm with hm' | hgap
    · exact Or.inl (by rw [← h.matched]; exact hm')
    · exact Or.inr (by rw [← h.same.gap]; exact hgap)

/-- An unmatched column over a tight edge takes row `i`. -/
theorem Augmented.leaf (hf : Free k i) (hj : j ∉ k.usedV) (hgap : k.gap mat i j ≤ 0)
    (hfree : k.vMatched j = none) :
    Augmented mat k i { k with
      usedV := insert j k.usedV, vMatched := Function.update k.vMatched j (some i) } where
  same := ⟨rfl, rfl⟩
  visited := fun j' hj' => Function.update_of_ne (fun h : j' = j => hj (h ▸ hj')) _ _
  inj := fun j₁ j₂ u h1 h2 hm1 hm2 => by
    simp only [Function.update_apply] at hm1 hm2
    split_ifs at hm1 hm2 with e1 e2 e2
    · exact e1.trans e2.symm
    · exact absurd (hm2.trans hm1.symm) (hf.fresh j₂ h2)
    · exact absurd (hm1.trans hm2.symm) (hf.fresh j₁ h1)
    · exact hf.inj j₁ j₂ u h1 h2 hm1 hm2
  rows := fun u => by
    constructor
    · rintro ⟨j', hj', hm⟩
      simp only [Function.update_apply] at hm
      split_ifs at hm
      · exact Or.inl (Option.some.inj hm).symm
      · exact Or.inr ⟨j', hj', hm⟩
    · rintro (rfl | ⟨j', hj', hm⟩)
      · exact ⟨j, hj, Function.update_self _ _ _⟩
      · refine ⟨j', hj', ?_⟩
        rw [← hm]
        apply Function.update_of_ne
        rintro rfl
        rw [hfree] at hm
        contradiction
  kept := fun j' hj' => by
    simp only [Function.update_apply]
    split_ifs
    · simp
    · exact hj'
  tight := fun j' u hm => by
    simp only [Function.update_apply] at hm
    split_ifs at hm with e
    · cases hm
      exact Or.inr (by rw [e]; exact hgap)
    · exact Or.inl hm

/-- When the mate of column `j` has found another column, `j` takes row `i`. -/
theorem Augmented.node (hf : Free k i) (hj : j ∉ k.usedV) (hgap : k.gap mat i j ≤ 0)
    (hmate : k.vMatched j = some u) (ha : Augmented mat { k with usedV := insert j k.usedV } u k₁) :
    Augmented mat k i { k₁ with vMatched := Function.update k₁.vMatched j (some i) } where
  same := ⟨ha.same.exU, ha.same.exV⟩
  visited := fun j' hj' => by
    rw [← ha.visited j' (Finset.mem_insert_of_mem hj')]
    exact Function.update_of_ne (fun h : j' = j => hj (h ▸ hj')) _ _
  inj := fun j₁ j₂ u' h1 h2 hm1 hm2 => by
    -- Row `i` sits nowhere else: the other columns have former mates of unvisited ones.
    have fresh : ∀ j', j' ≠ j → j' ∉ k.usedV → k₁.vMatched j' ≠ some i := by
      intro j' hne hj' hm
      rcases (ha.rows i).mp ⟨j', by simp [hne, hj'], hm⟩ with rfl | ⟨j'', hj'', hm''⟩
      · exact hf.fresh j hj hmate
      · exact hf.fresh j'' (fun hk => hj'' (Finset.mem_insert_of_mem hk)) hm''
    simp only [Function.update_apply] at hm1 hm2
    split_ifs at hm1 hm2 with e1 e2 e2
    · exact e1.trans e2.symm
    · exact absurd (hm2.trans hm1.symm) (fresh j₂ e2 h2)
    · exact absurd (hm1.trans hm2.symm) (fresh j₁ e1 h1)
    · exact ha.inj j₁ j₂ u' (by simp [e1, h1]) (by simp [e2, h2]) hm1 hm2
  rows := fun u' => by
    constructor
    · rintro ⟨j', hj', hm⟩
      simp only [Function.update_apply] at hm
      split_ifs at hm with e
      · exact Or.inl (Option.some.inj hm).symm
      · rcases (ha.rows u').mp ⟨j', by simp [e, hj'], hm⟩ with rfl | ⟨j'', hj'', hm''⟩
        · exact Or.inr ⟨j, hj, hmate⟩
        · exact Or.inr ⟨j'', fun hk => hj'' (Finset.mem_insert_of_mem hk), hm''⟩
    · have elsewhere : ∀ u'', (∃ j', j' ∉ insert j k.usedV ∧ k₁.vMatched j' = some u'') →
          ∃ j', j' ∉ k.usedV ∧ Function.update k₁.vMatched j (some i) j' = some u'' := by
        rintro u'' ⟨j', hj', hm⟩
        simp only [Finset.mem_insert, not_or] at hj'
        exact ⟨j', hj'.2, by rw [Function.update_of_ne hj'.1]; exact hm⟩
      rintro (rfl | ⟨j', hj', hm⟩)
      · exact ⟨j, hj, Function.update_self _ _ _⟩
      · by_cases e : j' = j
        · subst e
          rw [hmate] at hm
          cases hm
          exact elsewhere _ ((ha.rows _).mpr (Or.inl rfl))
        · exact elsewhere _ ((ha.rows _).mpr (Or.inr ⟨j', by simp [e, hj'], hm⟩))
  kept := fun j' hj' => by
    simp only [Function.update_apply]
    split_ifs
    · simp
    · exact ha.kept j' hj'
  tight := fun j' u' hm => by
    simp only [Function.update_apply] at hm
    split_ifs at hm with e
    · cases hm
      exact Or.inr (by rw [e]; exact hgap)
    · exact ha.tight j' u' hm

omit [Zero K] [Add K] [Sub K] [LinearOrder K] in
/-- The mate of an unvisited column may be searched for, once the column is visited. -/
theorem Free.mate (hf : Free k i) (hj : j ∉ k.usedV) (hmate : k.vMatched j = some u) :
    Free { k with usedV := insert j k.usedV } u where
  inj := fun j₁ j₂ u' h1 h2 => by
    simp only [Finset.mem_insert, not_or] at h1 h2
    exact hf.inj j₁ j₂ u' h1.2 h2.2
  fresh := fun j' hj' hm => by
    simp only [Finset.mem_insert, not_or] at hj'
    exact hj'.1 (hf.inj j' j u hj'.2 hj hm hmate)

theorem Free.explored (hf : Free k i) (h : Explored mat r k k₁) : Free k₁ i where
  inj := fun j j' u hj hj' => by
    rw [h.matched]
    exact hf.inj j j' u (fun hk => hj (h.usedV hk)) (fun hk => hj' (h.usedV hk))
  fresh := fun j hj => by
    rw [h.matched]
    exact hf.fresh j (fun hk => hj (h.usedV hk))

/-! ## the search -/

/-- What a call of `FindCP` may come back with. -/
def Outcome (mat : Fin n → Fin m → K) (r : Fin n) (k : KMkernal n m K) (i : Fin n)
    (res : Option (Bool × KMkernal n m K)) : Prop :=
  ∃ k', res = some (true, k') ∧ Augmented mat k i k' ∨
    res = some (false, k') ∧ Explored mat r k k' ∧ i ∈ k'.usedU ∧ ∀ j, Scanned mat k' i j

/-- **The loop of `FindCP`**, given what its recursive calls do. -/
theorem findCPLoop_spec {rec : KMkernal n m K → Fin n → Option (Bool × KMkernal n m K)}
    {fuel : Nat}
    (hrec : ∀ k u, m < fuel + k.usedV.card → Reach mat k r u → Free k u →
      Outcome mat r k u (rec k u))
    (js : List (Fin m)) (k : KMkernal n m K) (hfuel : m < fuel + 1 + k.usedV.card)
    (hr : Reach mat k r i) (hf : Free k i) :
    ∃ k', findCPLoop mat rec i js k = some (true, k') ∧ Augmented mat k i k' ∨
      findCPLoop mat rec i js k = some (false, k') ∧ Explored mat r k k' ∧
        ∀ j ∈ js, Scanned mat k' i j := by
  induction js generalizing k with
  | nil => exact ⟨k, Or.inr ⟨rfl, Explored.refl mat r k, by simp⟩⟩
  | cons j js ih =>
      -- Going on from a state the search has only explored to.
      have go : ∀ k₁, Explored mat r k k₁ → Scanned mat k₁ i j →
          ∃ k', findCPLoop mat rec i js k₁ = some (true, k') ∧ Augmented mat k i k' ∨
            findCPLoop mat rec i js k₁ = some (false, k') ∧ Explored mat r k k' ∧
              ∀ j' ∈ j :: js, Scanned mat k' i j' := by
        intro k₁ hx hs
        have hcard := Finset.card_le_card hx.usedV
        obtain ⟨k', h | ⟨hres, hx', hall⟩⟩ :=
          ih k₁ (by omega) (hr.congr hx.same hx.matched) (hf.explored hx)
        · exact ⟨k', Or.inl ⟨h.1, Augmented.of_explored hx hf h.2⟩⟩
        · refine ⟨k', Or.inr ⟨hres, hx.trans hx', ?_⟩⟩
          intro j' hj'
          rcases List.mem_cons.mp hj' with rfl | hj'
          · exact hs.mono hx'
          · exact hall j' hj'
      rw [findCPLoop]
      by_cases hj : j ∈ k.usedV
      · rw [if_pos hj]
        exact go k (Explored.refl mat r k) (Or.inl hj)
      · rw [if_neg hj]
        by_cases hgap : k.gap mat i j ≤ 0
        · rw [if_pos hgap]
          simp only
          cases hmate : k.vMatched j with
          | none => exact ⟨_, Or.inl ⟨rfl, Augmented.leaf hf hj hgap hmate⟩⟩
          | some u =>
              have hcard : (insert j k.usedV).card = k.usedV.card + 1 :=
                Finset.card_insert_of_notMem hj
              have hreach : Reach mat { k with usedV := insert j k.usedV } r u :=
                (Reach.step hr hgap hmate).congr ⟨rfl, rfl⟩ rfl
              obtain ⟨k₁, ⟨hres, ha⟩ | ⟨hres, hx, hu, -⟩⟩ :=
                hrec { k with usedV := insert j k.usedV } u (by simp only [hcard]; omega)
                  hreach (hf.mate hj hmate)
              · simp only [hres]
                exact ⟨_, Or.inl ⟨rfl, Augmented.node hf hj hgap hmate ha⟩⟩
              · simp only [hres]
                exact go k₁ (Explored.visit hr hgap hmate hx hu)
                  (Or.inl (hx.usedV (Finset.mem_insert_self j _)))
        · rw [if_neg hgap]
          refine go _ (Explored.lowerSlack hr (not_le.mp hgap)) (Or.inr ?_)
          refine ⟨not_le.mp hgap, ?_⟩
          simp only [Function.update_self]
          exact min_le_right _ _

/-- **`FindCP`** with enough fuel either augments the matching or explores the whole
alternating tree below its row. -/
theorem findCP_spec (mat : Fin n → Fin m → K) (r : Fin n) (fuel : Nat) (k : KMkernal n m K)
    (i : Fin n) (hfuel : m < fuel + k.usedV.card) (hr : Reach mat k r i) (hf : Free k i) :
    Outcome mat r k i (findCP mat fuel k i) := by
  induction fuel generalizing k i with
  | zero =>
      have := Finset.card_le_univ k.usedV
      rw [Fintype.card_fin] at this
      omega
  | succ fuel ih =>
      rw [findCP]
      have hx₀ : SameLabels k { k with usedU := insert i k.usedU } := ⟨rfl, rfl⟩
      obtain ⟨k', ⟨hres, ha⟩ | ⟨hres, hx, hall⟩⟩ :=
        findCPLoop_spec (fun k u => ih k u) (List.finRange m)
          { k with usedU := insert i k.usedU } hfuel (hr.congr hx₀ rfl) ⟨hf.inj, hf.fresh⟩
      · exact ⟨k', Or.inl ⟨hres, ⟨⟨ha.same.exU, ha.same.exV⟩, ha.visited, ha.inj, ha.rows,
          ha.kept, ha.tight⟩⟩⟩
      · have hscan : ∀ j, Scanned mat k' i j := fun j => hall j (List.mem_finRange j)
        have hi : i ∈ k'.usedU := hx.usedU (Finset.mem_insert_self i _)
        refine ⟨k', Or.inr ⟨hres, ?_, hi, hscan⟩⟩
        exact {
          same := ⟨hx.same.exU, hx.same.exV⟩
          matched := hx.matched
          usedU := (Finset.subset_insert i k.usedU).trans hx.usedU
          usedV := hx.usedV
          scanned := fun u hu hk => by
            by_cases e : u = i
            · rw [e]; exact hscan
            · exact hx.scanned u hu (by simp [e, hk])
          mates := hx.mates
          reachU := fun u hu hk => by
            by_cases e : u = i
            · rw [e]; exact hr
            · exact (hx.reachU u hu (by simp [e, hk])).congr ⟨rfl, rfl⟩ rfl
          reachV := fun j hj hk => by
            obtain ⟨u, hu, hg⟩ := hx.reachV j hj hk
            exact ⟨u, hu.congr ⟨rfl, rfl⟩ rfl, hg⟩
          slack_le := hx.slack_le
          slack_eq := fun j => by
            rcases hx.slack_eq j with hj | ⟨u, hu, hpos, hj⟩
            · exact Or.inl hj
            · exact Or.inr ⟨u, hu.congr ⟨rfl, rfl⟩ rfl, hpos, hj⟩ }

end V2I.Km
