import V2I.Fusion.Km.Rounds

/-!
# V2I.Fusion.Km.Optimal

`GetKMResult` computes a maximum-weight assignment, with exact weights: `K` is any ordered ring.

The slack array is not reset between two searches for the same row.  That is sound: the
slack of an unreachable column is the gap of some reachable row, or is above the label of
the row being inserted (`SlackInv`), and the least slack never is.
-/

namespace V2I.Km

open Assignment List

variable {n m : Nat} {K : Type*} [Ring K] [LinearOrder K]
variable {mat : Fin n → Fin m → K} {k k' : KMkernal n m K} {i : Fin n}

/-! ## the invariants -/

/-- Labels and matching between two searches. -/
structure Dual (mat : Fin n → Fin m → K) (k : KMkernal n m K) : Prop where
  feasible : ∀ i j, 0 ≤ k.gap mat i j
  inj : ∀ j j' u, k.vMatched j = some u → k.vMatched j' = some u → j = j'
  tight : ∀ j u, k.vMatched j = some u → k.gap mat u j ≤ 0
  exU_nonneg : ∀ i, 0 ≤ k.exU i
  exU_lt : ∀ i, k.exU i < usrInf K
  exV_nonneg : ∀ j, 0 ≤ k.exV j
  exV_zero : ∀ j, k.vMatched j = none → k.exV j = 0

/-- The slacks while row `i` is being inserted. -/
def SlackInv (mat : Fin n → Fin m → K) (k : KMkernal n m K) (i : Fin n) : Prop :=
  ∀ j, ReachV mat k i j ∨ (∃ u, Reach mat k i u ∧ k.vSlack j = k.gap mat u j) ∨
    k.exU i < k.vSlack j

/-! ## the label change -/

theorem gap_relabel (k : KMkernal n m K) (u : Fin n) (j : Fin m) :
    (relabel k).gap mat u j = k.gap mat u j + (if j ∈ k.usedV then leastSlack k else 0) -
      (if u ∈ k.usedU then leastSlack k else 0) := by
  simp only [KMkernal.gap, relabel]
  split_ifs <;> abel

/-- A search keeps the slack invariant. -/
theorem SlackInv.explored (hs : SlackInv mat k i)
    (h : Explored mat i { k with usedU := ∅, usedV := ∅ } k') : SlackInv mat k' i := by
  have hsame : SameLabels k k' := ⟨h.same.exU, h.same.exV⟩
  intro j
  rcases h.slack_eq j with hj | ⟨u, hu, -, hj⟩
  · rcases hs j with ⟨u, hu, hle⟩ | ⟨u, hu, heq⟩ | hlt
    · exact Or.inl ⟨u, hu.congr hsame h.matched, by rw [hsame.gap]; exact hle⟩
    · exact Or.inr (Or.inl ⟨u, hu.congr hsame h.matched, by rw [hsame.gap, hj]; exact heq⟩)
    · exact Or.inr (Or.inr (by rw [hsame.exU, hj]; exact hlt))
  · exact Or.inr (Or.inl ⟨u, hu.congr h.same h.matched, by rw [h.same.gap, hj]⟩)

/-- Inside the tree the label change moves no gap, so what was reachable stays so. -/
theorem Reach.relabel (hf : Failed mat i k) (hu : Reach mat k i u) : Reach mat (relabel k) i u := by
  induction hu with
  | root => exact Reach.root
  | @step u u' j hu hle hmate ih =>
      refine Reach.step ih ?_ hmate
      have hj : j ∈ k.usedV := (hf.mem_usedV j).mpr ⟨u, hu, hle⟩
      rw [gap_relabel, if_pos hj, if_pos ((hf.mem_usedU u).mpr hu), add_sub_cancel_right]
      exact hle

/-- A column of the tree stays reachable. -/
theorem Failed.reachV_relabel (hf : Failed mat i k) {j : Fin m} (hj : j ∈ k.usedV) :
    ReachV mat (relabel k) i j := by
  obtain ⟨u, hu, hle⟩ := (hf.mem_usedV j).mp hj
  refine ⟨u, hu.relabel hf, ?_⟩
  rw [gap_relabel, if_pos hj, if_pos ((hf.mem_usedU u).mpr hu), add_sub_cancel_right]
  exact hle

/-- A matched edge lies inside the tree of a failed search or outside of it. -/
theorem Failed.mem_used_iff (hf : Failed mat i k) (hd : Dual mat k)
    (hi : ∀ j, k.vMatched j ≠ some i) {j : Fin m} {u : Fin n} (hm : k.vMatched j = some u) :
    u ∈ k.usedU ↔ j ∈ k.usedV := by
  constructor
  · intro hu
    cases (hf.mem_usedU u).mp hu with
    | root => exact absurd hm (hi j)
    | @step u' _ j' hr hle hm' =>
        rw [hd.inj j j' u hm hm']
        exact (hf.mem_usedV j').mpr ⟨u', hr, hle⟩
  · intro hj
    obtain ⟨u', hu', hm'⟩ := hf.mates j hj
    rw [hm] at hm'
    cases hm'
    exact hu'

/-- The invariant depends on the labels, and on a matching whose edges are matched before or
tight. -/
theorem Dual.congr (hd : Dual mat k) (hsame : SameLabels k k')
    (hinj : ∀ j j' u, k'.vMatched j = some u → k'.vMatched j' = some u → j = j')
    (htight : ∀ j u, k'.vMatched j = some u → k.vMatched j = some u ∨ k.gap mat u j ≤ 0)
    (hfree : ∀ j, k'.vMatched j = none → k.vMatched j = none) : Dual mat k' where
  feasible := fun i' j' => by rw [hsame.gap]; exact hd.feasible i' j'
  inj := hinj
  tight := fun j u hm => by
    rw [hsame.gap]
    rcases htight j u hm with hm' | hle
    · exact hd.tight j u hm'
    · exact hle
  exU_nonneg := by rw [hsame.exU]; exact hd.exU_nonneg
  exU_lt := by rw [hsame.exU]; exact hd.exU_lt
  exV_nonneg := by rw [hsame.exV]; exact hd.exV_nonneg
  exV_zero := fun j hm => by
    rw [hsame.exV]
    exact hd.exV_zero j (hfree j hm)

variable [IsStrictOrderedRing K]

/-- The least slack after a failed search is the positive gap of an edge that leaves the
tree. -/
theorem leastSlack_attained (hnn : ∀ i j, 0 ≤ mat i j) (hd : Dual mat k)
    (hf : Failed mat i k) (hs : SlackInv mat k i) (hj₀ : k.vMatched j₀ = none) :
    0 < leastSlack k ∧
      ∃ u ∈ k.usedU, ∃ j, j ∉ k.usedV ∧ leastSlack k = k.gap mat u j := by
  have hi : i ∈ k.usedU := (hf.mem_usedU i).mpr Reach.root
  have hfree : j₀ ∉ k.usedV := by
    intro hj
    obtain ⟨u, -, hu⟩ := hf.mates j₀ hj
    rw [hj₀] at hu
    contradiction
  -- An unmatched column keeps the least slack at or below the label of row `i`.
  have hle : leastSlack k ≤ k.exU i := by
    calc leastSlack k ≤ k.vSlack j₀ := leastSlack_le hfree
      _ ≤ k.gap mat i j₀ := (hf.slack_le i hi j₀ hfree).2
      _ = k.exU i - mat i j₀ := by rw [KMkernal.gap, hd.exV_zero j₀ hj₀, add_zero]
      _ ≤ k.exU i := sub_le_self _ (hnn i j₀)
  have hatt : ∃ u ∈ k.usedU, ∃ j, j ∉ k.usedV ∧ leastSlack k = k.gap mat u j := by
    rcases leastSlack_eq k with hinf | ⟨j, hj, heq⟩
    · exact absurd (hinf ▸ hle) (not_le.mpr (hd.exU_lt i))
    · rcases hs j with hr | ⟨u, hu, hg⟩ | hlt
      · exact absurd ((hf.mem_usedV j).mpr hr) hj
      · exact ⟨u, (hf.mem_usedU u).mpr hu, j, hj, heq.trans hg⟩
      · exact absurd (heq ▸ hle) (not_le.mpr hlt)
  refine ⟨?_, hatt⟩
  obtain ⟨u, hu, j, hj, heq⟩ := hatt
  rw [heq]
  exact (hf.slack_le u hu j hj).1

theorem Failed.feasible_relabel (hf : Failed mat i k) (hd : Dual mat k) (hpos : 0 < leastSlack k)
    (i' : Fin n) (j' : Fin m) : 0 ≤ (relabel k).gap mat i' j' := by
  have h0 := hd.feasible i' j'
  rw [gap_relabel]
  split_ifs with hj' hi' hi'
  · rwa [add_sub_cancel_right]
  · rw [sub_zero]; exact add_nonneg h0 hpos.le
  · rw [add_zero]
    exact sub_nonneg.mpr (le_trans (leastSlack_le hj') (hf.slack_le i' hi' j' hj').2)
  · rwa [add_zero, sub_zero]

/-- The label change keeps the labels feasible and the matched edges tight. -/
theorem Dual.relabel (hnn : ∀ i j, 0 ≤ mat i j) (hd : Dual mat k) (hf : Failed mat i k)
    (hi : ∀ j, k.vMatched j ≠ some i) (hpos : 0 < leastSlack k) {j₀ : Fin m}
    (hj₀ : k.vMatched j₀ = none) : Dual mat (relabel k) := by
  have hkeep : ∀ j', j' ∉ k.usedV → (Km.relabel k).exV j' = k.exV j' := fun j' h => if_neg h
  exact {
    feasible := hf.feasible_relabel hd hpos
    inj := hd.inj
    tight := fun j' u' (hm : k.vMatched j' = some u') => by
      have hiff := hf.mem_used_iff hd hi hm
      rw [gap_relabel]
      by_cases hj' : j' ∈ k.usedV
      · rw [if_pos hj', if_pos (hiff.mpr hj'), add_sub_cancel_right]
        exact hd.tight j' u' hm
      · rw [if_neg hj', if_neg (fun h => hj' (hiff.mp h)), add_zero, sub_zero]
        exact hd.tight j' u' hm
    exU_nonneg := fun i' => by
      have h := hf.feasible_relabel hd hpos i' j₀
      rw [KMkernal.gap, hkeep j₀ (hf.notMem_usedV hj₀), hd.exV_zero j₀ hj₀, add_zero] at h
      exact le_trans (hnn i' j₀) (sub_nonneg.mp h)
    exU_lt := fun i' => by
      simp only [Km.relabel]
      split_ifs
      · exact lt_of_le_of_lt (sub_le_self _ hpos.le) (hd.exU_lt i')
      · exact hd.exU_lt i'
    exV_nonneg := fun j' => by
      simp only [Km.relabel]
      split_ifs
      · exact add_nonneg (hd.exV_nonneg j') hpos.le
      · exact hd.exV_nonneg j'
    exV_zero := fun j' hm => by
      rw [hkeep j' (hf.notMem_usedV hm)]
      exact hd.exV_zero j' hm }

theorem SlackInv.relabel (hs : SlackInv mat k i) (hf : Failed mat i k) :
    SlackInv mat (relabel k) i := by
  intro j
  by_cases hj : j ∈ k.usedV
  · exact Or.inl (hf.reachV_relabel hj)
  · have hslack : (Km.relabel k).vSlack j = k.vSlack j - leastSlack k := if_neg hj
    rcases hs j with hr | ⟨u, hu, hg⟩ | hlt
    · exact absurd ((hf.mem_usedV j).mpr hr) hj
    · refine Or.inr (Or.inl ⟨u, hu.relabel hf, ?_⟩)
      rw [hslack, gap_relabel, if_neg hj, if_pos ((hf.mem_usedU u).mpr hu), add_zero, hg]
    · refine Or.inr (Or.inr ?_)
      have hexU : (Km.relabel k).exU i = k.exU i - leastSlack k :=
        if_pos ((hf.mem_usedU i).mpr Reach.root)
      rw [hslack, hexU]
      exact sub_lt_sub_right hlt _

/-- **The label change** after a failed search keeps the invariants and makes a further
column reachable. -/
theorem relabel_step (hnn : ∀ i j, 0 ≤ mat i j) (hd : Dual mat k) (hf : Failed mat i k)
    (hs : SlackInv mat k i) (hi : ∀ j, k.vMatched j ≠ some i) (hj₀ : k.vMatched j₀ = none) :
    Dual mat (relabel k) ∧ SlackInv mat (relabel k) i ∧
      (∀ j ∈ k.usedV, ReachV mat (relabel k) i j) ∧
      ∃ j, j ∉ k.usedV ∧ ReachV mat (relabel k) i j := by
  obtain ⟨hpos, u, hu, j, hj, heq⟩ := leastSlack_attained hnn hd hf hs hj₀
  refine ⟨hd.relabel hnn hf hi hpos hj₀, hs.relabel hf, fun _ => hf.reachV_relabel, j, hj, u,
    ((hf.mem_usedU u).mp hu).relabel hf, ?_⟩
  rw [gap_relabel, if_neg hj, if_pos hu, add_zero, heq, sub_self]

/-! ## inserting a row -/

/-- What inserting row `i` does to the matching and to the labels of the other rows. -/
structure Inserted (k : KMkernal n m K) (i : Fin n) (k' : KMkernal n m K) : Prop where
  rows : ∀ u, (∃ j, k'.vMatched j = some u) ↔ u = i ∨ ∃ j, k.vMatched j = some u
  exU : ∀ u, u ≠ i → (∀ j, k.vMatched j ≠ some u) → k'.exU u = k.exU u

/-- **The `while (1)`** ends: every failed search adds a column to the ones that are
reachable, and there are only `m` of them. -/
theorem insertRow_spec (hnn : ∀ i j, 0 ≤ mat i j) {fuel : Nat} (hfuel : m < fuel) (iter : Nat)
    (k : KMkernal n m K) (V : Finset (Fin m)) (hiter : m < iter + V.card)
    (hV : ∀ j ∈ V, ReachV mat k i j) (hd : Dual mat k) (hs : SlackInv mat k i)
    (hi : ∀ j, k.vMatched j ≠ some i) (hj₀ : k.vMatched j₀ = none) :
    ∃ k', insertRow mat fuel iter k i = some k' ∧ Dual mat k' ∧ Inserted k i k' := by
  induction iter generalizing k V with
  | zero =>
      have := Finset.card_le_univ V
      rw [Fintype.card_fin] at this
      omega
  | succ iter ih =>
      rw [insertRow]
      have hfree : Free ({ k with usedU := ∅, usedV := ∅ } : KMkernal n m K) i :=
        ⟨fun j j' u _ _ => hd.inj j j' u, fun j _ => hi j⟩
      obtain ⟨k', ⟨hres, ha⟩ | ⟨hres, hx, hiU, -⟩⟩ :=
        findCP_spec mat i fuel { k with usedU := ∅, usedV := ∅ } i (by simpa using hfuel)
          Reach.root hfree
      · -- the matching is augmented, the labels are as before
        have hsame : SameLabels k k' := ⟨ha.same.exU, ha.same.exV⟩
        have hout : ∀ j : Fin m, j ∉ (∅ : Finset (Fin m)) := Finset.notMem_empty
        refine ⟨k', by rw [hres], ?_, ?_, fun u _ _ => by rw [hsame.exU]⟩
        · refine hd.congr hsame (fun j j' u => ha.inj j j' u (hout j) (hout j')) ha.tight ?_
          intro j hm
          by_contra hne
          exact ha.kept j hne hm
        · intro u
          have h := ha.rows u
          simp only [Finset.notMem_empty, not_false_eq_true, true_and] at h
          exact h
      · -- a failed search: change the labels and go on
        have hsame : SameLabels k k' := ⟨hx.same.exU, hx.same.exV⟩
        have hmatched : k'.vMatched = k.vMatched := hx.matched
        have hd' : Dual mat k' := by
          refine hd.congr hsame ?_ ?_ ?_ <;> rw [hmatched]
          · exact hd.inj
          · exact fun _ _ => Or.inl
          · exact fun _ => id
        have hf := Failed.of_explored hx hiU
        have hi' : ∀ j, k'.vMatched j ≠ some i := by rw [hmatched]; exact hi
        have hj₀' : k'.vMatched j₀ = none := by rw [hmatched]; exact hj₀
        obtain ⟨hd'', hs'', hreach, j, hj, hjr⟩ :=
          relabel_step hnn hd' hf (hs.explored hx) hi' hj₀'
        have hVsub : V ⊆ k'.usedV := by
          intro j' hj'
          obtain ⟨u, hu, hle⟩ := hV j' hj'
          exact (hf.mem_usedV j').mpr
            ⟨u, hu.congr hsame hmatched, by rw [hsame.gap]; exact hle⟩
        have hcard : V.card + 1 ≤ (insert j k'.usedV).card := by
          rw [Finset.card_insert_of_notMem hj]
          exact Nat.succ_le_succ (Finset.card_le_card hVsub)
        obtain ⟨k'', hres', hdual, hins⟩ := ih (relabel k') (insert j k'.usedV) (by omega)
          (fun j' hj' => by
            rcases Finset.mem_insert.mp hj' with rfl | hj'
            · exact hjr
            · exact hreach j' hj')
          hd'' hs'' hi' hj₀'
        refine ⟨k'', by rw [hres]; exact hres', hdual, ?_, ?_⟩
        · intro u
          rw [hins.rows u]
          simp only [Km.relabel, hmatched]
        · intro u hne hum
          have hu : u ∉ k'.usedU := by
            intro hu
            cases (hf.mem_usedU u).mp hu with
            | root => exact hne rfl
            | step _ _ hm => rw [hmatched] at hm; exact hum _ hm
          rw [hins.exU u hne (by simp only [Km.relabel, hmatched]; exact hum), ← hsame.exU]
          exact if_neg hu

/-! ## the loop over the rows -/

/-- **The loop over the rows**: every row is matched, or reported in `sk` with label zero. -/
theorem insertRows_spec (hnm : n ≤ m) (hnn : ∀ i j, 0 ≤ mat i j) {fuel : Nat} (hfuel : m < fuel)
    (needReverse : Bool) (is : List (Fin n)) (hnd : is.Nodup) (k : KMkernal n m K)
    (hd : Dual mat k) (hun : ∀ i ∈ is, ∀ j, k.vMatched j ≠ some i) :
    ∃ (k' : KMkernal n m K) (sk : List (Fin n)),
      insertRows mat fuel needReverse is k = some (k', sk.map (rowEntry needReverse)) ∧
      sk.Sublist is ∧ Dual mat k' ∧
      (∀ u ∈ sk, k'.exU u = 0 ∧ ∀ j, k'.vMatched j ≠ some u) ∧
      (∀ u ∈ is, u ∉ sk → ∃ j, k'.vMatched j = some u) ∧
      (∀ u, u ∉ is → ((∃ j, k'.vMatched j = some u) ↔ ∃ j, k.vMatched j = some u)) ∧
      (∀ u, u ∉ is → (∀ j, k.vMatched j ≠ some u) → k'.exU u = k.exU u) := by
  induction is generalizing k with
  | nil => exact ⟨k, [], rfl, List.Sublist.refl _, hd, by simp, by simp, fun _ _ => Iff.rfl,
      fun _ _ _ => rfl⟩
  | cons i is ih =>
      rw [nodup_cons] at hnd
      rw [insertRows]
      by_cases hskip : k.exU i ≤ 0
      · rw [if_pos hskip]
        obtain ⟨k', sk, hres, hsub, hd', hsk, hin, hrows, hexU⟩ :=
          ih hnd.2 k hd (fun u hu => hun u (mem_cons_of_mem _ hu))
        have hi := hun i mem_cons_self
        have hzero : k.exU i = 0 := le_antisymm hskip (hd.exU_nonneg i)
        have hi' : ∀ j, k'.vMatched j ≠ some i := by
          intro j hj
          obtain ⟨j', hj'⟩ := (hrows i hnd.1).mp ⟨j, hj⟩
          exact hi j' hj'
        refine ⟨k', i :: sk, by rw [hres]; rfl, hsub.cons_cons i, hd', ?_, ?_, ?_, ?_⟩
        · intro u hu
          rcases mem_cons.mp hu with rfl | hu
          · exact ⟨(hexU u hnd.1 hi).trans hzero, hi'⟩
          · exact hsk u hu
        · intro u hu hn
          rcases mem_cons.mp hu with rfl | hu
          · exact absurd mem_cons_self hn
          · exact hin u hu (fun h => hn (mem_cons_of_mem _ h))
        · exact fun u hu => hrows u (fun h => hu (mem_cons_of_mem _ h))
        · exact fun u hu => hexU u (fun h => hu (mem_cons_of_mem _ h))
      · rw [if_neg hskip]
        have hi := hun i mem_cons_self
        obtain ⟨j₀, hj₀⟩ := exists_unmatched hnm hd.inj hi
        obtain ⟨k₁, hres₁, hd₁, hins⟩ := insertRow_spec hnn hfuel fuel
          { k with vSlack := fun _ => usrInf K } ∅ (by simpa using hfuel) (by simp)
          ⟨hd.feasible, hd.inj, hd.tight, hd.exU_nonneg, hd.exU_lt, hd.exV_nonneg, hd.exV_zero⟩
          (fun j => Or.inr (Or.inr (hd.exU_lt i))) hi hj₀
        have hrows₁ : ∀ u, (∃ j, k₁.vMatched j = some u) ↔ u = i ∨ ∃ j, k.vMatched j = some u :=
          hins.rows
        have hun₁ : ∀ u ∈ is, ∀ j, k₁.vMatched j ≠ some u := by
          intro u hu j hj
          rcases (hrows₁ u).mp ⟨j, hj⟩ with rfl | ⟨j', hj'⟩
          · exact hnd.1 hu
          · exact hun u (mem_cons_of_mem _ hu) j' hj'
        obtain ⟨k', sk, hres, hsub, hd', hsk, hin, hrows, hexU⟩ := ih hnd.2 k₁ hd₁ hun₁
        refine ⟨k', sk, by rw [hres₁]; exact hres, hsub.cons i, hd', hsk, ?_, ?_, ?_⟩
        · intro u hu hn
          rcases mem_cons.mp hu with rfl | hu
          · exact (hrows u hnd.1).mpr ((hrows₁ u).mpr (Or.inl rfl))
          · exact hin u hu hn
        · intro u hu
          rw [mem_cons, not_or] at hu
          rw [hrows u hu.2, hrows₁ u]
          exact ⟨fun h => h.resolve_left hu.1, Or.inr⟩
        · intro u hu hum
          rw [mem_cons, not_or] at hu
          have hum₁ : ∀ j, k₁.vMatched j ≠ some u := by
            intro j hj
            rcases (hrows₁ u).mp ⟨j, hj⟩ with h | ⟨j', hj'⟩
            · exact hu.1 h
            · exact hum j' hj'
          rw [hexU u hu.2 hum₁]
          exact hins.exU u hu.1 hum

/-! ## the initial labels -/

omit [Ring K] [IsStrictOrderedRing K] in
theorem le_foldl_max (f : Fin m → K) (js : List (Fin m)) (x : K) :
    x ≤ js.foldl (fun x j => max x (f j)) x ∧
      (∀ j ∈ js, f j ≤ js.foldl (fun x j => max x (f j)) x) ∧
      (js.foldl (fun x j => max x (f j)) x = x ∨
        ∃ j ∈ js, js.foldl (fun x j => max x (f j)) x = f j) := by
  induction js generalizing x with
  | nil => simp
  | cons j js ih =>
      obtain ⟨h1, h2, h3⟩ := ih (max x (f j))
      refine ⟨le_trans (le_max_left _ _) h1, ?_, ?_⟩
      · intro j' hj'
        rcases mem_cons.mp hj' with rfl | hj'
        · exact le_trans (le_max_right _ _) h1
        · exact h2 j' hj'
      · rcases h3 with h3 | ⟨j', hj', h3⟩
        · rcases max_choice x (f j) with h | h
          · exact Or.inl (h3.trans h)
          · exact Or.inr ⟨j, mem_cons_self, h3.trans h⟩
        · exact Or.inr ⟨j', mem_cons_of_mem _ hj', h3⟩

omit [IsStrictOrderedRing K] in
/-- The row maximum dominates the row and is one of its weights. -/
theorem rowMax_spec (mat : Fin n → Fin m → K) (i : Fin n) :
    (∀ j, mat i j ≤ rowMax mat i) ∧ (m = 0 ∧ rowMax mat i = 0 ∨ ∃ j, rowMax mat i = mat i j) := by
  unfold rowMax
  cases hjs : finRange m with
  | nil =>
      have hm : m = 0 := by rw [← length_finRange (n := m), hjs]; rfl
      subst hm
      exact ⟨fun j => j.elim0, Or.inl ⟨rfl, rfl⟩⟩
  | cons j js =>
      obtain ⟨h1, h2, h3⟩ := le_foldl_max (mat i) js (mat i j)
      refine ⟨?_, Or.inr ?_⟩
      · intro j'
        have hj' : j' ∈ j :: js := by rw [← hjs]; exact mem_finRange j'
        rcases mem_cons.mp hj' with rfl | hj'
        · exact h1
        · exact h2 j' hj'
      · rcases h3 with h3 | ⟨j', -, h3⟩
        · exact ⟨j, h3⟩
        · exact ⟨j', h3⟩

/-- The initial labels dominate the weights. -/
theorem dual_initial (hnn : ∀ i j, 0 ≤ mat i j) (hlt : ∀ i j, mat i j < usrInf K) :
    Dual mat (initial mat) where
  feasible := fun i j => by
    simp only [KMkernal.gap, initial, add_zero]
    exact sub_nonneg.mpr ((rowMax_spec mat i).1 j)
  inj := by simp [initial]
  tight := by simp [initial]
  exU_nonneg := fun i => by
    rcases (rowMax_spec mat i).2 with ⟨-, h⟩ | ⟨j, h⟩
    · exact le_of_eq h.symm
    · exact le_of_le_of_eq (hnn i j) h.symm
  exU_lt := fun i => by
    rcases (rowMax_spec mat i).2 with ⟨-, h⟩ | ⟨j, h⟩
    · refine lt_of_eq_of_lt h ?_
      exact Nat.cast_pos.mpr (by decide)
    · exact lt_of_eq_of_lt h (hlt i j)
  exV_nonneg := fun _ => le_refl _
  exV_zero := fun _ _ => rfl

/-- **`GetKMResult` returns**, in both modes. -/
theorem getKMResult_result (mat : Fin n → Fin m → K) (needReverse : Bool) (hnm : n ≤ m)
    (hnn : ∀ i j, 0 ≤ mat i j) (hlt : ∀ i j, mat i j < usrInf K) (fuel : Nat) (hfuel : m < fuel) :
    ∃ k sk cps, getKMResult fuel mat needReverse = some (true, cps) ∧
      Result mat needReverse k sk cps ∧ Dual mat k ∧ ∀ u ∈ sk, k.exU u = 0 := by
  obtain ⟨k, sk, hres, hsub, hd, hsk, hin, -, -⟩ :=
    insertRows_spec hnm hnn hfuel needReverse (finRange n) (nodup_finRange n)
      (initial mat) (dual_initial hnn hlt) (fun _ _ _ => by simp [initial])
  refine ⟨k, sk, _, by rw [getKMResult, if_neg (by omega), hres], ⟨?_, hd.inj,
    hsub.nodup (nodup_finRange n), fun u hu => (hsk u hu).2,
    fun u hu => hin u (mem_finRange u) hu⟩, hd, fun u hu => (hsk u hu).1⟩
  rw [map_append, rowEntry_map_rowCol, map_flatMap, Km.entries]
  simp only [columnEntries_map_rowCol]

/-- **Exact searches do not stall**: it takes a label that is rounded, or a weight from `USR_INF`
on. -/
theorem neverStalls_of_exact (hnm : n ≤ m) (hnn : ∀ i j, 0 ≤ mat i j)
    (hlt : ∀ i j, mat i j < usrInf K) : NeverStalls mat := by
  let exact : Rounding K := { (inferInstance : LinearOrder K) with
    ofRat := fun _ => 0
    single := id
    add_zero := add_zero
    sub_zero := sub_zero
    sub_self := sub_self
    mul_zero := mul_zero
    single_zero := rfl
    sub_nonneg := sub_nonneg.mpr
    sub_nonpos := sub_nonpos.mpr
    sub_le := fun h _ => sub_le_self _ h
    natCast_pos := Nat.cast_pos.mpr }
  obtain ⟨k, sk, cps, hres, -⟩ := getKMResult_result mat false hnm hnn hlt (m + 1) m.lt_succ_self
  exact neverStalls_of_getKMResult hnm hres

/-- **`GetKMResult` computes a maximum-weight assignment**: for non-negative exact weights
below `USR_INF` and at most as many rows as columns it returns, in both modes, entries in
which every row and every column occurs exactly once, whose matched pairs have positive
weight and together weigh as much as any one-to-one assignment. -/
theorem kmkernal_max_assignment (mat : Fin n → Fin m → K) (needReverse : Bool) (hnm : n ≤ m)
    (hnn : ∀ i j, 0 ≤ mat i j) (hlt : ∀ i j, mat i j < usrInf K) (fuel : Nat) (hfuel : m < fuel) :
    ∃ cps, getKMResult fuel mat needReverse = some (true, cps) ∧
      (∀ i : Fin n, (cps.map (rowOf needReverse)).count (i : Int) = 1) ∧
      (∀ j : Fin m, (cps.map (colOf needReverse)).count (j : Int) = 1) ∧
      (∀ p ∈ matchedPairs n m needReverse cps, 0 < mat p.1 p.2) ∧
      OneToOne (matchedPairs n m needReverse cps) ∧
      ∀ B : Finset (Fin n × Fin m), OneToOne B →
        weight mat B ≤ weight mat (matchedPairs n m needReverse cps) := by
  obtain ⟨k, sk, cps, hres, h, hd, hskipped⟩ :=
    getKMResult_result mat needReverse hnm hnn hlt fuel hfuel
  have hmem := h.mem_matchedPairs
  have hsum : ∀ i j, mat i j ≤ k.exU i + k.exV j :=
    fun i j => sub_nonneg.mp (hd.feasible i j)
  have htight : ∀ j u, k.vMatched j = some u → mat u j = k.exU u + k.exV j := by
    intro j u hm
    exact le_antisymm (hsum u j) (sub_nonpos.mp (hd.tight j u hm))
  refine ⟨cps, hres, h.count_row, h.count_col, fun p hp => ((hmem p).mp hp).2, h.oneToOne, ?_⟩
  -- Edges of weight zero are left out: their labels are zero on both sides.
  have hzero : ∀ j u, k.vMatched j = some u → ¬ 0 < mat u j → k.exU u = 0 ∧ k.exV j = 0 := by
    intro j u hm hn
    have h0 := le_antisymm (not_lt.mp hn) (hnn u j)
    rw [htight j u hm] at h0
    exact (add_eq_zero_iff_of_nonneg (hd.exU_nonneg u) (hd.exV_nonneg j)).mp h0
  refine isMax_of_tight h.oneToOne hd.exU_nonneg hd.exV_nonneg hsum
    (fun p hp => htight p.2 p.1 ((hmem p).mp hp).1) ?_ ?_
  · intro i hi
    by_cases hsi : i ∈ sk
    · exact hskipped i hsi
    · obtain ⟨j, hj⟩ := h.matched i hsi
      refine (hzero j i hj fun hpos => hi ?_).1
      exact Finset.mem_image.mpr ⟨(i, j), (hmem (i, j)).mpr ⟨hj, hpos⟩, rfl⟩
  · intro j hj
    cases hM : k.vMatched j with
    | none => exact hd.exV_zero j hM
    | some u =>
        refine (hzero j u hM fun hpos => hj ?_).2
        exact Finset.mem_image.mpr ⟨(u, j), (hmem (u, j)).mpr ⟨hM, hpos⟩, rfl⟩

/-- Two rows that both want the first of three columns. -/
theorem kmkernal_max_assignment_two :
    ∃ cps, getKMResult 4 (![![3, 2, 0], ![3, 1, 0]] : Fin 2 → Fin 3 → ℚ) true = some (true, cps) ∧
      OneToOne (matchedPairs 2 3 true cps) := by
  obtain ⟨cps, hres, -, -, -, hone, -⟩ := kmkernal_max_assignment
    (![![3, 2, 0], ![3, 1, 0]] : Fin 2 → Fin 3 → ℚ) true (by decide) (by decide)
    (by unfold usrInf; decide) 4 (by decide)
  exact ⟨cps, hres, hone⟩

end V2I.Km
