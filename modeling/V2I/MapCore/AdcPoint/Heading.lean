import V2I.MapCore.AdcPoint.Walk

/-!
# V2I.MapCore.AdcPoint.Heading

Which successor `get_next_laneseg_by_hdg` takes. The running minimum `minadf` keeps the
difference with its sign: a segment that deviates to the one side makes it negative, and
none of those behind it is taken any more.
-/

namespace V2I.AdcPoint

open List

variable (M : Libm) {n m : ℕ} (map : Hdmap n m)

/-- The segment has a centre line that begins at `s = 0`. -/
def beginsAtZero (ls : Fin n) : Bool :=
  (map.laneseg ls).data.any fun c => c.first.s ≤ 1 / 10 ^ 7

/-- How far the beginning of a segment deviates from the heading. -/
def deviation (hdg : ℚ) (ls : Fin n) : ℚ :=
  match (map.laneseg ls).data with
  | none => 0
  | some c =>
      angleDiff M (normalizeAngle M
        (M.atan2 (c.second.pt.y - c.first.pt.y) (c.second.pt.x - c.first.pt.x))) hdg

/-- The segments of the successors that begin at `s = 0`, in the order of the loops. -/
def successorStarts (hdls : Fin n) : List (Fin n) :=
  match (map.laneseg hdls).lane with
  | none => []
  | some l =>
      (((map.lane l).successors.filterMap id).flatMap fun l' => (map.lane l').segments).filter
        (beginsAtZero map)

/-- Where a successor deviates by less than a quarter turn, one of those that deviate least is
taken. -/
def TakesClosest (hdls : Fin n) (hdg : ℚ) : Prop :=
  (∃ ls ∈ successorStarts map hdls, |deviation M map hdg ls| < M.pi / 2) →
    ∃ ls ∈ successorStarts map hdls, nextLanesegByHdg M map hdls hdg = some ls ∧
      ∀ ls' ∈ successorStarts map hdls, |deviation M map hdg ls| ≤ |deviation M map hdg ls'|

/-- In front of every successor that deviates less than the segment `ls`, there is no `ls`
that deviates to the negative side, by less than a quarter turn and by less than all those
before it. -/
def NoneBehindNegative (hdls : Fin n) (hdg : ℚ) : Prop :=
  ∀ before ls behind, successorStarts map hdls = before ++ ls :: behind →
    deviation M map hdg ls < 0 → |deviation M map hdg ls| < M.pi / 2 →
    (∀ ls' ∈ before, |deviation M map hdg ls| < |deviation M map hdg ls'|) →
    ∀ ls' ∈ behind, |deviation M map hdg ls| ≤ |deviation M map hdg ls'|

/-! ## The running minimum -/

section Closer

variable {α : Type*} (dev : α → ℚ)

/-- A round of the loop for a segment that begins at `s = 0`. -/
def closer (best : Option α × ℚ) (a : α) : Option α × ℚ :=
  if |dev a| < best.2 then (some a, dev a) else (best.1.or (some a), best.2)

theorem foldl_closerLaneseg (hdg : ℚ) (l : List (Fin n)) (best : Option (Fin n) × ℚ) :
    l.foldl (closerLaneseg M map hdg) best =
      (l.filter (beginsAtZero map)).foldl (closer (deviation M map hdg)) best := by
  have hround : ∀ best ls, closerLaneseg M map hdg best ls =
      if beginsAtZero map ls then closer (deviation M map hdg) best ls else best := by
    intro best ls
    unfold closerLaneseg beginsAtZero closer deviation
    cases (map.laneseg ls).data with
    | none => rfl
    | some c =>
        by_cases hs : c.first.s ≤ 1 / 10 ^ 7
        · simp only [if_neg (not_lt.mpr hs), Option.any_some, decide_eq_true hs, if_true]
        · simp only [if_pos (not_le.mp hs), Option.any_some, decide_eq_false hs,
            Bool.false_eq_true, if_false]
  rw [foldl_filter, funext₂ hround]

theorem nextLanesegByHdg_eq (hdls : Fin n) (hdg : ℚ) : nextLanesegByHdg M map hdls hdg =
    ((successorStarts map hdls).foldl (closer (deviation M map hdg)) (none, M.pi / 2)).1 := by
  unfold nextLanesegByHdg successorStarts
  cases (map.laneseg hdls).lane with
  | none => rfl
  | some l => exact congrArg Prod.fst (foldl_closerLaneseg M map hdg _ _)

variable {dev}

/-- Below zero nothing is taken any more. -/
theorem foldl_closer_of_neg {best : ℚ} (hneg : best < 0) (a : α) (l : List α) :
    l.foldl (closer dev) (some a, best) = (some a, best) := by
  induction l with
  | nil => rfl
  | cons b l ih =>
      have hnot : ¬ |dev b| < best := not_lt.mpr (hneg.le.trans (abs_nonneg _))
      rw [foldl_cons, closer, if_neg hnot]
      exact ih

/-- What the loop has reached behind the list `l`: nothing below the bound, or a segment that
was taken for less than all those before it, and that is negative or the least of all. -/
inductive Chosen (dev : α → ℚ) (bound : ℚ) (l : List α) : Option α × ℚ → Prop
  | above (o : Option α) : (∀ b ∈ l, bound ≤ |dev b|) → Chosen dev bound l (o, bound)
  | taken (before : List α) (a : α) (behind : List α) : l = before ++ a :: behind →
      |dev a| < bound → (∀ b ∈ before, |dev a| < |dev b|) →
      (dev a < 0 ∨ ∀ b ∈ behind, |dev a| ≤ |dev b|) → Chosen dev bound l (some a, dev a)

theorem Chosen.snoc {bound : ℚ} {l : List α} {best : Option α × ℚ} (h : Chosen dev bound l best)
    (b : α) : Chosen dev bound (l ++ [b]) (closer dev best b) := by
  cases h with
  | above o habove =>
      rw [closer]
      split_ifs with hb
      · exact .taken l b [] rfl hb (fun c hc => hb.trans_le (habove c hc)) (.inr nofun)
      · refine .above _ fun c hc => ?_
        rcases mem_append.mp hc with hc | hc
        · exact habove c hc
        · rw [mem_singleton.mp hc]
          exact not_lt.mp hb
  | taken before a behind hl hbound hbefore hbehind =>
      subst hl
      have happend : before ++ a :: behind ++ [b] = before ++ a :: (behind ++ [b]) := by simp
      rw [closer]
      split_ifs with hb
      · -- the minimum so far is not negative: `b` is below everything
        have ha : |dev a| = dev a := abs_of_pos ((abs_nonneg _).trans_lt hb)
        have hmin : ∀ c ∈ behind, |dev a| ≤ |dev c| :=
          hbehind.resolve_left (not_lt.mpr ((abs_nonneg _).trans ha.le))
        have hba : |dev b| < |dev a| := hb.trans_eq ha.symm
        refine .taken (before ++ a :: behind) b [] rfl (hba.trans hbound) (fun c hc => ?_)
          (.inr nofun)
        rcases mem_append.mp hc with hc | hc
        · exact hba.trans (hbefore c hc)
        · rcases mem_cons.mp hc with rfl | hc
          · exact hba
          · exact hba.trans_le (hmin c hc)
      · rw [happend]
        refine .taken before a (behind ++ [b]) rfl hbound hbefore ?_
        rcases lt_or_ge (dev a) 0 with hneg | hnonneg
        · exact .inl hneg
        · have hmin := hbehind.resolve_left (not_lt.mpr hnonneg)
          rw [abs_of_nonneg hnonneg] at hmin ⊢
          refine .inr fun c hc => ?_
          rcases mem_append.mp hc with hc | hc
          · exact hmin c hc
          · rw [mem_singleton.mp hc]
            exact not_lt.mp hb

variable (dev) in
/-- **The loop** ends with what `Chosen` describes. -/
theorem foldl_closer (bound : ℚ) (l : List α) :
    Chosen dev bound l (l.foldl (closer dev) (none, bound)) := by
  induction l using reverseRecOn with
  | nil => exact .above none nofun
  | append_singleton l b ih =>
      rw [foldl_append]
      exact ih.snoc b

/-- A negative one that is taken for less than all those before it stays, or one of those
stays. -/
theorem foldl_closer_of_negative {bound : ℚ} {before : List α} {a : α} (behind : List α)
    (hneg : dev a < 0) (hbound : |dev a| < bound) (hbefore : ∀ b ∈ before, |dev a| < |dev b|) :
    ∃ c, ((before ++ a :: behind).foldl (closer dev) (none, bound)).1 = some c ∧
      |dev a| ≤ |dev c| := by
  have htake : ∀ best : Option α × ℚ, |dev a| < best.2 →
      behind.foldl (closer dev) (closer dev best a) = (some a, dev a) := by
    intro best hlt
    rw [closer, if_pos hlt, foldl_closer_of_neg hneg]
  rw [foldl_append, foldl_cons]
  cases hbest : before.foldl (closer dev) (none, bound) with
  | mk o best =>
      have hchosen := foldl_closer dev bound before
      rw [hbest] at hchosen
      cases hchosen with
      | above _ _ => exact ⟨a, by rw [htake _ hbound], le_rfl⟩
      | taken k₁ c k₂ hl _ _ _ =>
          have hc := hbefore c (hl ▸ mem_append_right _ mem_cons_self)
          rcases lt_or_ge (dev c) 0 with hcneg | hcnonneg
          · refine ⟨c, ?_, hc.le⟩
            rw [← foldl_cons, foldl_closer_of_neg hcneg]
          · rw [abs_of_nonneg hcnonneg] at hc
            exact ⟨a, by rw [htake _ hc], le_rfl⟩

end Closer

/-! ## The successor taken -/

/-- **The successor taken** is one of those that deviate least, exactly when none of them is
behind one on the negative side that deviates more and was taken. -/
theorem takesClosest_iff (hdls : Fin n) (hdg : ℚ) :
    TakesClosest M map hdls hdg ↔ NoneBehindNegative M map hdls hdg := by
  unfold TakesClosest NoneBehindNegative
  rw [nextLanesegByHdg_eq]
  constructor
  · intro h before ls behind hl hneg hbound hbefore ls' hls'
    have hls : ls ∈ successorStarts map hdls := hl ▸ mem_append_right _ mem_cons_self
    obtain ⟨c, -, hc, hmin⟩ := h ⟨ls, hls, hbound⟩
    obtain ⟨c', hc', hle⟩ := foldl_closer_of_negative behind hneg hbound hbefore
    rw [← hl, hc, Option.some.injEq] at hc'
    subst hc'
    refine hle.trans (hmin ls' ?_)
    rw [hl]
    exact mem_append_right _ (mem_cons_of_mem _ hls')
  · intro hnone hclose
    cases hbest : (successorStarts map hdls).foldl (closer (deviation M map hdg))
        (none, M.pi / 2) with
    | mk o best =>
        have hchosen := foldl_closer (deviation M map hdg) (M.pi / 2)
          (successorStarts map hdls)
        rw [hbest] at hchosen
        cases hchosen with
        | above _ habove =>
            obtain ⟨ls, hls, hlt⟩ := hclose
            exact absurd hlt (not_lt.mpr (habove ls hls))
        | taken before ls behind hl hbound hbefore hbehind =>
            have hmem : ls ∈ successorStarts map hdls :=
              hl ▸ mem_append_right _ mem_cons_self
            refine ⟨ls, hmem, rfl, fun ls' hls' => ?_⟩
            rw [hl] at hls'
            rcases mem_append.mp hls' with hls' | hls'
            · exact (hbefore ls' hls').le
            · rcases mem_cons.mp hls' with rfl | hls'
              · exact le_rfl
              · exact hbehind.elim (fun hneg => hnone before ls behind hl hneg hbound hbefore ls' hls')
                  fun h => h ls' hls'

/-- A lane along the x axis that forks into one to the left, listed first, and one straight
on. -/
def forkedLane : Hdmap 3 3 where
  laneseg
    | 0 => ⟨none, none, some 0, some ⟨⟨⟨0, 0⟩, 3, 0⟩, ⟨⟨10, 0⟩, 3, 10⟩, []⟩⟩
    | 1 => ⟨none, none, some 1, some ⟨⟨⟨10, 0⟩, 3, 0⟩, ⟨⟨20, 1⟩, 3, 10⟩, []⟩⟩
    | 2 => ⟨none, none, some 2, some ⟨⟨⟨10, 0⟩, 3, 0⟩, ⟨⟨20, 0⟩, 3, 10⟩, []⟩⟩
  lane
    | 0 => ⟨[some 1, some 2], 0, 1, by decide⟩
    | 1 => ⟨[], 1, 1, by decide⟩
    | 2 => ⟨[], 2, 1, by decide⟩

/-- On the fork, straight ahead, the lane to the left is taken. -/
theorem not_takesClosest_fork : ¬ TakesClosest decimalLibm forkedLane 0 0 := by
  intro h
  have hstarts : successorStarts forkedLane 0 = [1, 2] := by decide +kernel
  have hstraight : deviation decimalLibm forkedLane 0 2 = 0 := by decide +kernel
  have hleft : ¬ |deviation decimalLibm forkedLane 0 1| ≤ 0 := by decide +kernel
  have htaken : nextLanesegByHdg decimalLibm forkedLane 0 0 = some 1 := by decide +kernel
  rw [TakesClosest, hstarts] at h
  obtain ⟨ls, -, hls, hmin⟩ := h ⟨2, by decide, by decide +kernel⟩
  rw [htaken, Option.some.injEq] at hls
  subst hls
  have hle := hmin 2 (by decide)
  rw [hstraight, abs_zero] at hle
  exact hleft hle

end V2I.AdcPoint
