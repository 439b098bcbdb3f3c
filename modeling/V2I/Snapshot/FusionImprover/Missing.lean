import V2I.Snapshot.FusionImprover.JunctionPass

/-!
# V2I.Snapshot.FusionImprover.Missing

The vehicles out of sight. Their time stamp counts the frame time since they went missing; a
frame that observes one writes 0 there, `missing_planning` adds the time step of the frame, and
only then `check_set_status_result` looks for the 0.
-/

namespace V2I.Snapshot

open Std Option Double Machine

variable {F L : Type} [Double F] [DecidableEq L] {P : Planner F L} {frame : Frame F L} {k : ℕ}

/-- The frame has a vehicle with this id. -/
def observes (frame : Frame F L) (k : ℕ) : Bool :=
  frame.targets.any fun tg => tg.id = k && decide (targetTypeCar ≤ tg.cls)

/-- How far `missing_planning` moves a vehicle. -/
def missingLen (v : VehItem F L) (dtime : ℕ) : F :=
  normalSpeed (if Double.lt v.speed (ofRat 5) then ofRat 20 else v.speed) *
    mstos (ofInt dtime)

/-- `missing_planning` gives the vehicle up: it is marked bad, its position is no number, the
road ends on the way, or it does not move. -/
def GivenUp (P : Planner F L) (v : VehItem F L) (dtime : ℕ) : Prop :=
  v.badItem = true ∨ Double.isnan v.pt.pt.x = true ∨ Double.isnan v.pt.pt.y = true ∨
    ∃ cur, v.curLane = some cur ∧
      ((P.getAdcAndPoint cur (missingLen v dtime) v.pt v.pt v.hdg v.width).lane = none ∨
        Double.eq v.pt.pt.x
            (P.getAdcAndPoint cur (missingLen v dtime) v.pt v.pt v.hdg v.width).nextpt.pt.x = true ∧
          Double.eq v.pt.pt.y
            (P.getAdcAndPoint cur (missingLen v dtime) v.pt v.pt v.hdg v.width).nextpt.pt.y = true)

/-! ## One frame -/

variable {v : VehItem F L}

omit [DecidableEq L] in
/-- A vehicle that is not given up gets the time step added. -/
theorem missingStep_eq_some {dtime : ℕ} {r : Option (VehItem F L)}
    (h : missingStep P v dtime = some r) :
    (r = none ∧ GivenUp P v dtime) ∨
      ∃ v', r = some v' ∧ ¬ GivenUp P v dtime ∧ v'.timestamp = (v.timestamp + dtime) % 2 ^ 64 := by
  have hspeed : (if Double.lt v.speed (ofRat 5) then { v with speed := ofRat 20 } else v) =
      { v with speed := if Double.lt v.speed (ofRat 5) then ofRat 20 else v.speed } := by
    split_ifs <;> rfl
  simp only [missingStep, hspeed] at h
  unfold GivenUp missingLen
  generalize normalSpeed (if Double.lt v.speed (ofRat 5) then ofRat 20 else v.speed) *
    mstos (ofInt dtime) = len at h ⊢
  by_cases hbad : v.badItem = true
  · rw [if_pos hbad] at h
    cases h
    exact .inl ⟨rfl, .inl hbad⟩
  · rw [if_neg hbad] at h
    split at h
    · cases h
    · next cur hcur =>
        simp only [hcur, some.injEq, exists_eq_left']
        split at h
        · next hnan =>
          cases h
          rw [Bool.or_eq_true] at hnan
          exact .inl ⟨rfl, .inr (hnan.elim .inl fun hy => .inr (.inl hy))⟩
        · next hnan =>
          rw [Bool.or_eq_true, not_or] at hnan
          split at h
          · next hroute =>
              cases h
              exact .inl ⟨rfl, .inr (.inr (.inr (.inl hroute)))⟩
          · next nlaneseg hroute =>
              split at h
              · next hsame =>
                cases h
                rw [Bool.and_eq_true] at hsame
                exact .inl ⟨rfl, .inr (.inr (.inr (.inr hsame)))⟩
              · next hsame =>
                cases h
                rw [Bool.and_eq_true] at hsame
                refine .inr ⟨_, rfl, ?_, rfl⟩
                rintro (h | h | h | h | h)
                · exact hbad h
                · exact hnan.1 h
                · exact hnan.2 h
                · exact absurd (hroute.symm.trans h) nofun
                · exact hsame h

omit [DecidableEq L] in
theorem missingPlanning_getElem? {vehs vehs' : Table F L} {dtime : ℕ}
    (h : missingPlanning P vehs dtime = some vehs') (k : ℕ) :
    (vehs[k]? = none → vehs'[k]? = none) ∧
      ∀ v, vehs[k]? = some v → missingStep P v dtime = some vehs'[k]? := by
  obtain ⟨⟨u, t⟩, hvisit, rfl⟩ := map_eq_some_iff.mp h
  obtain ⟨hnone, hsome⟩ := visitM_getElem? hvisit k
  refine ⟨hnone, fun v hv => ?_⟩
  obtain ⟨_, _, r, hstep, hr⟩ := hsome v hv
  obtain ⟨r', hr', heq⟩ := map_eq_some_iff.mp hstep
  cases heq
  rw [hr', hr]

variable {s s' : State F L} {calls : List Call}

/-- A target changes a missing vehicle only when it is that vehicle. -/
theorem observe_fm {tg : Target F} (hs : TablesOk s) (h : observe P frame s tg = some (s', calls))
    (hv : s.fm[k]? = some v) :
    ∃ item, s'.fm[k]? = some { v with
      vehItem := item
      timestamp := if tg.id = k ∧ targetTypeCar ≤ tg.cls then 0 else v.timestamp } := by
  unfold observe at h
  split_ifs at h with hcls hfj
  · cases h
    exact ⟨v.vehItem, by rw [hv, if_neg fun hk => Int.not_lt.mpr hk.2 hcls]⟩
  · have hne : tg.id ≠ k := by
      rintro rfl
      exact hs.fjfm _ hfj (mem_of_getElem? hv)
    extract_lets vitem at h
    split at h
    · cases h
    · cases h
      exact ⟨v.vehItem, by rw [hv, if_neg fun hk => hne hk.1]⟩
  · extract_lets vitem at h
    split at h
    · next w hw =>
        cases h
        by_cases hk : tg.id = k
        · subst hk
          cases hv.symm.trans hw
          exact ⟨vitem.vehItem, by rw [ExtTreeMap.getElem?_insert_self,
            if_pos ⟨rfl, Int.not_lt.mp hcls⟩]⟩
        · refine ⟨v.vehItem, ?_⟩
          rw [if_neg fun h => hk h.1]
          exact getElem?_insert_eq_some.mpr (.inr ⟨Ne.symm hk, hv⟩)
    · next hnone =>
        obtain ⟨fn, hfn, heq⟩ := map_eq_some_iff.mp h
        cases heq
        have hne : tg.id ≠ k := by
          rintro rfl
          exact absurd (hnone.symm.trans hv) nofun
        exact ⟨v.vehItem, by rw [hv, if_neg fun hk => hne hk.1]⟩

/-- The time stamp of a missing vehicle after the targets of a frame. -/
theorem observeAll_fm {tgs : List (Target F)} (hs : TablesOk s)
    (h : observeAll P frame s tgs = some (s', calls)) (hv : s.fm[k]? = some v) :
    ∃ item, s'.fm[k]? = some { v with
      vehItem := item
      timestamp := if tgs.any fun tg => tg.id = k && decide (targetTypeCar ≤ tg.cls) then 0
        else v.timestamp } := by
  induction tgs generalizing s calls v with
  | nil =>
      cases h
      exact ⟨v.vehItem, hv⟩
  | cons tg tgs ih =>
      obtain ⟨s₁, calls₁, calls₂, hobs, hrest, rfl⟩ := observeAll_cons_eq_some h
      obtain ⟨item, hitem⟩ := observe_fm hs hobs hv
      obtain ⟨item', hitem'⟩ := ih (observe_tablesOk hs hobs) hrest hitem
      refine ⟨item', hitem'.trans ?_⟩
      by_cases htg : tg.id = k ∧ targetTypeCar ≤ tg.cls
      · simp [htg]
      · have hfalse : (decide (tg.id = k) && decide (targetTypeCar ≤ tg.cls)) = false := by
          simpa using htg
        rw [List.any_cons, hfalse, Bool.false_or, if_neg htg]

/-- No target puts a vehicle among the missing ones. -/
theorem observeAll_fm_none {tgs : List (Target F)} (h : observeAll P frame s tgs = some (s', calls))
    (hv : s.fm[k]? = none) : s'.fm[k]? = none := by
  induction tgs generalizing s calls with
  | nil =>
      cases h
      exact hv
  | cons tg tgs ih =>
      obtain ⟨s₁, calls₁, calls₂, hobs, hrest, rfl⟩ := observeAll_cons_eq_some h
      refine ih hrest ?_
      unfold observe at hobs
      split_ifs at hobs with hcls hfj
      · cases hobs
        exact hv
      · extract_lets vitem at hobs
        split at hobs
        · cases hobs
        · cases hobs
          exact hv
      · extract_lets vitem at hobs
        split at hobs
        · next w hw =>
            cases hobs
            refine eq_none_iff_forall_ne_some.mpr fun v' hv' => ?_
            obtain ⟨rfl, -⟩ | ⟨-, hv'⟩ := getElem?_insert_eq_some.mp hv'
            · exact absurd (hv.symm.trans hw) nofun
            · exact absurd (hv.symm.trans hv') nofun
        · obtain ⟨fn, hfn, heq⟩ := map_eq_some_iff.mp hobs
          cases heq
          exact hv

omit [Double F] [DecidableEq L] in
/-- A vehicle that left the junction starts to be missing at time 0. -/
theorem junctionToMissing_fm (s : State F L) {v' : VehItem F L}
    (hv' : (junctionToMissing s).fm[k]? = some v') :
    s.fm[k]? = some v' ∨ (k ∈ s.fj ∧ v'.timestamp = 0) := by
  refine foldl_toList_invariant
    (I := fun t : State F L => ∀ v' : VehItem F L, t.fm[k]? = some v' →
      s.fm[k]? = some v' ∨ (k ∈ s.fj ∧ v'.timestamp = 0))
    (Q := fun _ e => e.1 ∈ s.fj) ?_ (fun _ _ _ _ h => h) s.fj (fun v' hv' => .inl hv')
    (fun e he => mem_of_getElem? (ExtTreeMap.mem_toList_iff_getElem?_eq_some.mp he)) v' hv'
  intro t e ht he
  split_ifs
  · exact ht
  · intro v' hv'
    obtain ⟨rfl, rfl⟩ | ⟨-, hv'⟩ := getElem?_insert_eq_some.mp hv'
    · exact .inr ⟨he, rfl⟩
    · exact ht v' hv'

omit [Double F] [DecidableEq L] in
theorem junctionToMissing_fm_of_not_mem (hk : k ∉ s.fj) :
    (junctionToMissing s).fm[k]? = s.fm[k]? := by
  refine foldl_toList_invariant (I := fun t : State F L => t.fm[k]? = s.fm[k]?)
    (Q := fun _ e => e.1 ∈ s.fj) ?_ (fun _ _ _ _ h => h) s.fj rfl
    (fun e he => mem_of_getElem? (ExtTreeMap.mem_toList_iff_getElem?_eq_some.mp he))
  intro t e ht he
  split_ifs
  · exact ht
  · have hne : e.1 ≠ k := by
      rintro rfl
      exact hk he
    rw [ExtTreeMap.getElem?_insert, if_neg fun h => hne (Nat.compare_eq_eq.mp h)]
    exact ht

theorem normalToJunction_fm (s : State F L) : (normalToJunction P s).fm = s.fm := by
  refine foldl_toList_invariant (I := fun t : State F L => t.fm = s.fm) (Q := fun _ _ => True) ?_
    (fun _ _ _ _ _ => trivial) s.fn rfl (fun _ _ => trivial)
  intro t e ht _
  split_ifs
  · exact ht
  · exact ht
  · exact ht

omit [DecidableEq L] in
theorem setTargets_fm (s : State F L) :
    (setTargets P s).1.fm[k]? =
      s.fm[k]?.map fun v => if v.badItem then v else (getTarget P v).1 := by
  simp only [setTargets, writeBack, ExtTreeMap.getElem?_map]

omit [Double F] [DecidableEq L] in
theorem dropMissing_getElem? {fm : Table F L} :
    (dropMissing fm)[k]? =
      fm[k]?.filter fun v => !(v.timestamp == 0 || decide (planningMaxTime < v.timestamp)) := by
  rw [dropMissing, ExtTreeMap.getElem?_filter']

omit [Double F] [DecidableEq L] in
/-- The time step of a frame is never 0, and at most ten seconds. -/
theorem getProcessTime_bounds (s : State F L) (pkgtime : ℕ) :
    0 < getProcessTime s pkgtime ∧ getProcessTime s pkgtime ≤ 10000 := by
  have hfirst : ∀ first : VehItem F L, 0 < sinceFirst pkgtime first ∧
      sinceFirst pkgtime first ≤ 10000 := by
    intro first
    unfold sinceFirst
    extract_lets dtime
    split_ifs with h <;> omega
  unfold getProcessTime
  split
  · exact hfirst _
  · exact hfirst _
  · omega

/-- The time a missing vehicle has before the missing pass of a frame. -/
def startTime (frame : Frame F L) (k : ℕ) (v : VehItem F L) : ℕ :=
  if observes frame k then 0 else v.timestamp

variable {out : Output F}

/-- **One frame**: a missing vehicle leaves the table when it is given up or out of time, and
else it has the time step of the frame more. -/
theorem improveFusionTargetToJunction_fm (hs : TablesOk s)
    (h : improveFusionTargetToJunction P s frame = some (s', out)) (hv : s.fm[k]? = some v)
    (htime : v.timestamp ≤ planningMaxTime) :
    (s'.fm[k]? = none ∧ (GivenUp P v (getProcessTime s frame.pkgtime) ∨
        planningMaxTime < startTime frame k v + getProcessTime s frame.pkgtime)) ∨
      ∃ v', s'.fm[k]? = some v' ∧
        v'.timestamp = startTime frame k v + getProcessTime s frame.pkgtime ∧
        ¬ (GivenUp P v (getProcessTime s frame.pkgtime) ∨
          planningMaxTime < startTime frame k v + getProcessTime s frame.pkgtime) := by
  obtain ⟨hpos, hle⟩ := getProcessTime_bounds s frame.pkgtime
  obtain ⟨s₁, s₂, calls, owners, calls', fj, fm, hprep, hobs, hfj, hfm, rfl, -⟩ :=
    improveFusionTargetToJunction_eq_some h
  generalize getProcessTime s frame.pkgtime = dtime at *
  have h₁ := prepare_tablesOk hs hprep
  have h₂ := observeAll_tablesOk h₁ hobs
  have hv₁ : s₁.fm[k]? = some v := by
    obtain ⟨fj₁, -, rfl⟩ := map_eq_some_iff.mp hprep
    exact hv
  obtain ⟨item, hv₂⟩ := observeAll_fm h₁ hobs hv₁
  have hstart : (if frame.targets.any fun tg => tg.id = k && decide (targetTypeCar ≤ tg.cls) then 0
      else v.timestamp) = startTime frame k v := rfl
  rw [hstart] at hv₂
  have hstart_le : startTime frame k v ≤ planningMaxTime := by
    unfold startTime
    split_ifs
    · exact Nat.zero_le _
    · exact htime
  have hk : k ∉ fj := fun hmem => h₂.fjfm k ((junctionPlanning_within h₂.fj hfj).2 k hmem)
    (mem_of_getElem? hv₂)
  have hend : (checkSetStatusResult P { s₂ with fj := fj, owners := owners, fm := fm }).fm[k]? =
      fm[k]?.filter fun v => !(v.timestamp == 0 || decide (planningMaxTime < v.timestamp)) := by
    rw [checkSetStatusResult, normalToJunction_fm, junctionToMissing_fm_of_not_mem hk,
      dropMissing_getElem?]
  rw [setTargets_fm, hend]
  -- the record after the targets differs from `v` only in what the missing pass does not read
  obtain ⟨hnone, hgiven⟩ | ⟨v', hsome, hgiven, htime'⟩ :=
    missingStep_eq_some ((missingPlanning_getElem? hfm k).2 _ hv₂)
  · exact .inl ⟨by rw [hnone]; rfl, .inl hgiven⟩
  · have hsum : v'.timestamp = startTime frame k v + dtime := by
      rw [htime']
      refine Nat.mod_eq_of_lt ?_
      have : planningMaxTime = 5000 := rfl
      simp only
      omega
    rw [hsome]
    by_cases hlong : planningMaxTime < startTime frame k v + dtime
    · refine .inl ⟨?_, .inr hlong⟩
      have hdrop : (!(v'.timestamp == 0 || decide (planningMaxTime < v'.timestamp))) = false := by
        simp [hsum, hlong]
      rw [filter_some, hdrop]
      rfl
    · refine .inr ⟨if v'.badItem then v' else (getTarget P v').1, ?_, ?_, ?_⟩
      · have hkeep : (!(v'.timestamp == 0 || decide (planningMaxTime < v'.timestamp))) = true := by
          simp only [hsum, Bool.not_eq_true', Bool.or_eq_false_iff, beq_eq_false_iff_ne,
            decide_eq_false_iff_not]
          omega
        rw [filter_some, hkeep]
        rfl
      · rw [← hsum]
        split_ifs <;> rfl
      · rintro (hg | hl)
        · exact hgiven hg
        · exact hlong hl

/-- A vehicle that goes missing in a frame starts at time 0. -/
theorem improveFusionTargetToJunction_fm_none {v' : VehItem F L}
    (h : improveFusionTargetToJunction P s frame = some (s', out)) (hv : s.fm[k]? = none)
    (hv' : s'.fm[k]? = some v') : v'.timestamp = 0 := by
  obtain ⟨s₁, s₂, calls, owners, calls', fj, fm, hprep, hobs, hfj, hfm, rfl, -⟩ :=
    improveFusionTargetToJunction_eq_some h
  have hv₁ : s₁.fm[k]? = none := by
    obtain ⟨fj₁, -, rfl⟩ := map_eq_some_iff.mp hprep
    exact hv
  have hfm' : fm[k]? = none := (missingPlanning_getElem? hfm k).1 (observeAll_fm_none hobs hv₁)
  rw [setTargets_fm, checkSetStatusResult, normalToJunction_fm] at hv'
  obtain ⟨w, hw, rfl⟩ := map_eq_some_iff.mp hv'
  have hzero : w.timestamp = 0 := by
    rcases junctionToMissing_fm _ hw with hold | ⟨-, hzero⟩
    · rw [dropMissing_getElem?, hfm'] at hold
      cases hold
    · exact hzero
  split_ifs <;> exact hzero

/-! ## Runs -/

/-- The tables are apart, and no missing vehicle is out of time. -/
structure MissingOk (s : State F L) : Prop where
  tables : TablesOk s
  time : ∀ (k : ℕ) (v : VehItem F L), s.fm[k]? = some v → v.timestamp ≤ planningMaxTime

theorem improveFusionTargetToJunction_missingOk
    (h : improveFusionTargetToJunction P s frame = some (s', out)) (hs : MissingOk s) :
    MissingOk s' := by
  refine ⟨(improveFusionTargetToJunction_tablesOk h hs.tables).1, fun k v' hv' => ?_⟩
  cases hv : s.fm[k]? with
  | none =>
      rw [improveFusionTargetToJunction_fm_none h hv hv']
      exact Nat.zero_le _
  | some v =>
      obtain ⟨hnone, -⟩ | ⟨w, hw, htime, hstay⟩ :=
        improveFusionTargetToJunction_fm hs.tables h hv (hs.time k v hv)
      · rw [hnone] at hv'
        cases hv'
      · cases hv'.symm.trans hw
        rw [htime]
        exact le_of_not_gt fun hlong => hstay (.inr hlong)

variable {frames : List (Frame F L)} {outs : List (Output F)}

theorem run_missingOk {jinfo : Option (JuncionInfo F L)}
    (h : run (improveFusionTargetToJunction P) (State.init F L jinfo) frames =
      some (s, outs)) : MissingOk s := by
  refine (run_invariant (I := MissingOk) (Q := fun _ => True) (fun s c s' r hstep hs =>
    ⟨improveFusionTargetToJunction_missingOk hstep hs, trivial⟩) h
    ⟨State.init_tablesOk jinfo, ?_⟩).1
  simp [State.init]

/-- The frame time of a run. -/
def elapsed (P : Planner F L) : State F L → List (Frame F L) → ℕ
  | _, [] => 0
  | s, frame :: frames =>
      getProcessTime s frame.pkgtime +
        match improveFusionTargetToJunction P s frame with
        | none => 0
        | some (s', _) => elapsed P s' frames

/-- The vehicle is missing and the frame does not observe it. -/
def StaysMissing (k : ℕ) (s : State F L) (frame : Frame F L) : Prop :=
  k ∈ s.fm ∧ observes frame k = false

/-- **A run that never observes a missing vehicle**: its time stamp is the time of the run. -/
theorem run_timestamp (hs : MissingOk s) (hv : s.fm[k]? = some v)
    (h : run (improveFusionTargetToJunction P) s frames = some (s', outs))
    (hmissing : Guarded (improveFusionTargetToJunction P) (StaysMissing k) s frames)
    (hend : k ∈ s'.fm) :
    ∃ v', s'.fm[k]? = some v' ∧ v'.timestamp = v.timestamp + elapsed P s frames := by
  induction frames generalizing s v outs with
  | nil =>
      cases h
      exact ⟨v, hv, rfl⟩
  | cons frame frames ih =>
      obtain ⟨s₁, out, outs', hc, hrun, -⟩ := run_cons_eq_some_iff.mp h
      have hguard := hmissing.2 s₁ out hc
      have hmem : k ∈ s₁.fm := by
        cases frames with
        | nil =>
            cases hrun
            exact hend
        | cons => exact hguard.1.1
      obtain ⟨hnone, -⟩ | ⟨v₁, hv₁, htime, -⟩ :=
        improveFusionTargetToJunction_fm hs.tables hc hv (hs.time k v hv)
      · rw [ExtTreeMap.mem_iff_isSome_getElem?, hnone] at hmem
        cases hmem
      · obtain ⟨v', hv', htime'⟩ :=
          ih (improveFusionTargetToJunction_missingOk hc hs) hv₁ hrun hguard
        refine ⟨v', hv', ?_⟩
        rw [htime', htime, startTime, if_neg (by simp [hmissing.1.2]), elapsed, hc]
        exact Nat.add_assoc _ _ _

/-- **Missing vehicles**, after any frames: one whose id is among the targets of the next frame
is gone after it iff `missing_planning` gives it up or its time stamp, which an observation sets
to 0, passes the maximum with the time step of the frame; and one that goes missing in that
frame and is not observed again has been missing for the maximum at most. -/
theorem observed_dropped_iff (P : Planner F L) (jinfo : Option (JuncionInfo F L))
    (frames : List (Frame F L)) (s : State F L) (outs : List (Output F))
    (h : run (improveFusionTargetToJunction P) (State.init F L jinfo) frames =
      some (s, outs)) (frame : Frame F L) (s' : State F L) (out : Output F)
    (hstep : improveFusionTargetToJunction P s frame = some (s', out)) :
    (∀ (k : ℕ) (v : VehItem F L), s.fm[k]? = some v → k ∈ frame.targets.map (·.id) →
      (k ∉ s'.fm ↔ GivenUp P v (getProcessTime s frame.pkgtime) ∨
        planningMaxTime < startTime frame k v + getProcessTime s frame.pkgtime)) ∧
    ∀ (k : ℕ) (after : List (Frame F L)) (s'' : State F L) (outs' : List (Output F)),
      k ∉ s.fm → k ∈ s'.fm →
      run (improveFusionTargetToJunction P) s' after = some (s'', outs') →
      Guarded (improveFusionTargetToJunction P) (StaysMissing k) s' after →
      k ∈ s''.fm → elapsed P s' after ≤ planningMaxTime := by
  have hs := run_missingOk h
  have hs' := improveFusionTargetToJunction_missingOk hstep hs
  constructor
  · intro k v hv _
    rw [ExtTreeMap.mem_iff_isSome_getElem?]
    obtain ⟨hnone, hgone⟩ | ⟨v', hv', -, hstay⟩ :=
      improveFusionTargetToJunction_fm hs.tables hstep hv (hs.time k v hv)
    · simp only [hnone, isSome_none, Bool.false_eq_true, not_false_eq_true, true_iff]
      exact hgone
    · simp only [hv', isSome_some, not_true_eq_false, false_iff]
      exact hstay
  · intro k after s'' outs' hk hk' hrun hguard hend
    rw [ExtTreeMap.mem_iff_isSome_getElem?, Bool.not_eq_true, isSome_eq_false_iff,
      isNone_iff_eq_none] at hk
    rw [ExtTreeMap.mem_iff_isSome_getElem?, isSome_iff_exists] at hk'
    obtain ⟨v, hv⟩ := hk'
    obtain ⟨v', hv', htime⟩ := run_timestamp hs' hv hrun hguard hend
    have hok := (run_invariant (I := MissingOk) (Q := fun _ => True)
      (fun s c s' r hstep hs => ⟨improveFusionTargetToJunction_missingOk hstep hs, trivial⟩)
      hrun hs').1
    rw [improveFusionTargetToJunction_fm_none hstep hk hv, Nat.zero_add] at htime
    rw [← htime]
    exact hok.time k v' hv'

theorem observed_dropped_iff_crossing : ∃ s outs s' out,
    run (improveFusionTargetToJunction crossing) (State.init ℚ ℕ (some crossingJunction))
      crossingFrames = some (s, outs) ∧
    improveFusionTargetToJunction crossing s (crossingFrame 4000 (1298 / 10)) = some (s', out) ∧
    (∀ (k : ℕ) (v : VehItem ℚ ℕ), s.fm[k]? = some v →
      k ∈ (crossingFrame 4000 (1298 / 10)).targets.map (·.id) →
      (k ∉ s'.fm ↔ GivenUp crossing v (getProcessTime s 4000) ∨
        planningMaxTime < startTime (crossingFrame 4000 (1298 / 10)) k v +
          getProcessTime s 4000)) ∧
    ∀ (k : ℕ) (after : List (Frame ℚ ℕ)) (s'' : State ℚ ℕ) (outs' : List (Output ℚ)),
      k ∉ s.fm → k ∈ s'.fm →
      run (improveFusionTargetToJunction crossing) s' after = some (s'', outs') →
      Guarded (improveFusionTargetToJunction crossing) (StaysMissing k) s' after →
      k ∈ s''.fm → elapsed crossing s' after ≤ planningMaxTime := by
  have hrun : (run (improveFusionTargetToJunction crossing)
      (State.init ℚ ℕ (some crossingJunction)) crossingFrames).any (fun p =>
        (improveFusionTargetToJunction crossing p.1 (crossingFrame 4000 (1298 / 10))).isSome) =
      true := by
    decide +kernel
  obtain ⟨⟨s, outs⟩, h, hsome⟩ := exists_of_any hrun
  obtain ⟨⟨s', out⟩, hstep⟩ := isSome_iff_exists.mp hsome
  exact ⟨s, outs, s', out, h, hstep, observed_dropped_iff crossing (some crossingJunction)
    crossingFrames s outs h (crossingFrame 4000 (1298 / 10)) s' out hstep⟩

/-- Vehicle 7 has left the junction and is seen again on the road behind it: it stays among the
missing vehicles. -/
theorem observed_vehicle_stays_missing : ∃ s outs s' out,
    run (improveFusionTargetToJunction crossing) (State.init ℚ ℕ (some crossingJunction))
      crossingFrames = some (s, outs) ∧
    improveFusionTargetToJunction crossing s (crossingFrame 4000 (1298 / 10)) = some (s', out) ∧
    7 ∈ s.fm ∧ 7 ∈ (crossingFrame 4000 (1298 / 10)).targets.map (·.id) ∧ 7 ∈ s'.fm := by
  have hrun : (run (improveFusionTargetToJunction crossing)
      (State.init ℚ ℕ (some crossingJunction)) crossingFrames).any (fun p =>
        (improveFusionTargetToJunction crossing p.1 (crossingFrame 4000 (1298 / 10))).any fun q =>
          p.1.fm.contains 7 && q.1.fm.contains 7) = true := by
    decide +kernel
  obtain ⟨⟨s, outs⟩, h, hstep⟩ := exists_of_any hrun
  obtain ⟨⟨s', out⟩, h', hboth⟩ := exists_of_any hstep
  obtain ⟨h7, h7'⟩ := Bool.and_eq_true_iff.mp hboth
  exact ⟨s, outs, s', out, h, h', ExtTreeMap.mem_iff_contains.mpr h7, by decide +kernel,
    ExtTreeMap.mem_iff_contains.mpr h7'⟩

end V2I.Snapshot
