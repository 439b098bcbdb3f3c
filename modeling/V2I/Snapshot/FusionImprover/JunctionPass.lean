import V2I.Snapshot.FusionImprover

/-!
# V2I.Snapshot.FusionImprover.JunctionPass

How often `junction_process` runs for a vehicle in the junction's table.

A frame goes over `_fj_planning` twice: once for the observed vehicles and once for the
others, told apart by `bused`. The flag is also how `junction_process` says that a vehicle
leaves, so a vehicle that leaves in the first pass is taken for an unobserved one in the
second. `junction_pass_once_iff` says exactly which vehicles are advanced once and with the
time step of the frame.
-/

namespace V2I.Snapshot

open Std List Option Machine

variable {F L : Type} [Double F] [DecidableEq L] {P : Planner F L}

/-! ## Leaving the junction -/

/-- A vehicle is neither on the last segment of an incoming lane nor, after its way in
`dtime`, on a segment of the junction. -/
def leaves (P : Planner F L) (info : Option (JuncionInfo F L)) (v : VehItem F L) (dtime : ℕ) :
    Bool :=
  if v.status = 0 then (incommingLane info v.curLane).isNone
  else
    match v.curLane with
    | none => false
    | some cur =>
        match (P.getAdcAndPoint cur (getVehcleDistance v dtime).1 v.pt v.pt v.hdg v.width).lane with
        | none => true
        | some ls => info.any fun info => outside P info ls

omit [DecidableEq L] in
theorem driftAcross_fields (v : VehItem F L) (dtime : F) :
    (driftAcross v dtime).bused = v.bused ∧ (driftAcross v dtime).curLane = v.curLane := by
  unfold driftAcross
  grind

variable {v v' : VehItem F L}

omit [DecidableEq L] in
/-- `status_process` marks the vehicle and puts it on the segment it comes to. -/
theorem statusProcess_fields (h : statusProcess P v info len t = some v') :
    v'.bused = true ∧ ∃ cur, v.curLane = some cur ∧
      v'.curLane = (P.getAdcAndPoint cur len v.pt v.pt v.hdg v.width).lane := by
  unfold statusProcess at h
  split at h
  · cases h
  · next cur hcur =>
      extract_lets r at h
      split at h
      · cases h
      · cases h
        simp only [driftAcross_fields]
        exact ⟨trivial, cur, hcur, rfl⟩

omit [DecidableEq L] in
theorem enterJunction_bused
    (h : enterJunction P info o v road key lane len dtime self = some (v', o')) :
    v'.bused = true := by
  unfold enterJunction at h
  split at h
  · cases h
  · obtain ⟨w, hw, heq⟩ := map_eq_some_iff.mp h
    cases heq
    exact (statusProcess_fields hw).1

omit [DecidableEq L] in
theorem approachStopLine_bused {standing : VehItem F L}
    (h : (approachStopLine P info v s dtime standing).map (·, o) = some (v', o'))
    (hs : standing.bused = true) : v'.bused = true := by
  obtain ⟨w, hw, heq⟩ := map_eq_some_iff.mp h
  cases heq
  unfold approachStopLine at hw
  split at hw
  · exact (statusProcess_fields hw).1
  · cases hw
    exact hs

omit [DecidableEq L] in
theorem incommingProcess_bused (hv : v.bused = true)
    (h : incommingProcess P info lights o v dtime real found = some (v', o')) :
    v'.bused = true := by
  unfold incommingProcess at h
  extract_lets at h
  split at h
  · cases h
  · extract_lets _ w at h
    have hw : w.bused = true := by grind
    split_ifs at h
    · obtain ⟨x, hx, heq⟩ := map_eq_some_iff.mp h
      cases heq
      exact (statusProcess_fields hx).1
    · exact enterJunction_bused h
    · exact approachStopLine_bused h hw
    · split at h
      · cases h
      · exact enterJunction_bused h
      · exact approachStopLine_bused h hw

omit [DecidableEq L] in
theorem getVehcleDistance_fields (v : VehItem F L) (dtime : ℕ) :
    (getVehcleDistance v dtime).2.curLane = v.curLane ∧
      (getVehcleDistance v dtime).2.pt = v.pt ∧ (getVehcleDistance v dtime).2.hdg = v.hdg ∧
      (getVehcleDistance v dtime).2.width = v.width := by
  unfold getVehcleDistance
  grind

theorem insideProcess_bused (hst : v.status ≠ 0)
    (h : insideProcess P info o v dtime = some (v', o')) : v'.bused = !leaves P info v dtime := by
  obtain ⟨hcurd, hptd, hhdgd, hwd⟩ := getVehcleDistance_fields v dtime
  unfold insideProcess at h
  extract_lets d at h
  cases hsp : statusProcess P d.2 info d.1 (Double.ofInt dtime) with
  | none => simp only [hsp] at h; cases h
  | some w =>
      obtain ⟨hbused, cur, hcur, hlane⟩ := statusProcess_fields hsp
      rw [hptd, hhdgd, hwd] at hlane
      rw [hcurd] at hcur
      simp only [hsp] at h
      unfold leaves
      rw [if_neg hst, hcur]
      dsimp only
      rw [← hlane]
      cases hls : w.curLane with
      | none =>
          simp only [hls] at h
          cases h
          rfl
      | some ls =>
          simp only [hls] at h
          cases info with
          | none => cases h
          | some info =>
              cases h
              by_cases hout : outside P info ls = true
              · simp [hout]
              · simp [hout, hbused]

/-- **The flag after `junction_process`**: it is cleared for the vehicles that leave. -/
theorem junctionProcess_bused (hv : v.bused = true)
    (h : junctionProcess P info lights o v dtime real = some (v', o')) :
    v'.bused = !leaves P info v dtime := by
  unfold junctionProcess at h
  split at h
  · next hst =>
      unfold leaves
      rw [if_pos hst]
      split at h
      · next hnone =>
          cases h
          simp [hnone]
      · next found hfound =>
          rw [incommingProcess_bused hv h, hfound]
          rfl
  · next hst => exact insideProcess_bused hst h

/-! ## The runs of `junction_process` for one vehicle -/

/-- The calls for one vehicle. -/
def callsOf (k : ℕ) (calls : List Call) : List Call := calls.filter (·.1 = k)

theorem callsOf_append (k : ℕ) (calls calls' : List Call) :
    callsOf k (calls ++ calls') = callsOf k calls ++ callsOf k calls' := filter_append ..

theorem callsOf_self (k dtime : ℕ) : callsOf k [(k, dtime)] = [(k, dtime)] := by simp [callsOf]

variable {k : ℕ}

theorem callsOf_of_ne {k' : ℕ} (h : k' ≠ k) (dtime : ℕ) : callsOf k [(k', dtime)] = [] := by
  simp [callsOf, h]

/-- The target is a vehicle. -/
def IsVehicle (tg : Target F) : Prop := targetTypeCar ≤ tg.cls

variable {s' s : State F L} {tg : Target F}

/-- A target that is no vehicle or another vehicle leaves the record of `k` alone. -/
theorem observe_other (h : observe P frame s tg = some (s', calls))
    (hk : ¬ (tg.id = k ∧ IsVehicle tg)) :
    s'.fj[k]? = s.fj[k]? ∧ callsOf k calls = [] ∧ s'.jinfo = s.jinfo := by
  unfold observe at h
  split_ifs at h with hcls hfj
  · cases h
    exact ⟨rfl, rfl, rfl⟩
  · have hne : tg.id ≠ k := fun heq => hk ⟨heq, le_of_not_gt hcls⟩
    extract_lets vitem at h
    split at h
    · cases h
    · next hplan =>
        cases h
        obtain ⟨v, v', -, -, rfl, rfl⟩ := junctionPlanningObserved_eq_some hplan
        refine ⟨?_, callsOf_of_ne hne _, rfl⟩
        rw [ExtTreeMap.getElem?_insert, if_neg]
        exact fun heq => hne (Nat.compare_eq_eq.mp heq)
  · extract_lets vitem at h
    split at h
    · cases h
      exact ⟨rfl, rfl, rfl⟩
    · obtain ⟨fn, hfn, heq⟩ := map_eq_some_iff.mp h
      cases heq
      exact ⟨rfl, rfl, rfl⟩

/-- The vehicle `k` itself is advanced by the time since its own time stamp. -/
theorem observe_self (h : observe P frame s tg = some (s', calls)) (htg : IsVehicle tg)
    (hv : s.fj[tg.id]? = some v) :
    (∃ v', s'.fj[tg.id]? = some v' ∧
      v'.bused = !leaves P s.jinfo (observed v (setTarget P frame.garbage tg frame.pkgtime))
        (observedTime frame.pkgtime v.timestamp)) ∧
      callsOf tg.id calls = [(tg.id, observedTime frame.pkgtime v.timestamp)] ∧
      s'.jinfo = s.jinfo := by
  unfold observe at h
  rw [if_neg (Int.not_lt.mpr htg), if_pos (mem_of_getElem? hv)] at h
  split at h
  · cases h
  · next hplan =>
      cases h
      obtain ⟨w, v', hw, hproc, rfl, rfl⟩ := junctionPlanningObserved_eq_some hplan
      cases hv.symm.trans hw
      exact ⟨⟨v', by simp [setTarget], junctionProcess_bused rfl hproc⟩, callsOf_self _ _, rfl⟩

theorem observeAll_other (h : observeAll P frame s tgs = some (s', calls))
    (hk : ∀ tg ∈ tgs, ¬ (tg.id = k ∧ IsVehicle tg)) :
    s'.fj[k]? = s.fj[k]? ∧ callsOf k calls = [] ∧ s'.jinfo = s.jinfo := by
  induction tgs generalizing s calls with
  | nil =>
      cases h
      exact ⟨rfl, rfl, rfl⟩
  | cons tg tgs ih =>
      obtain ⟨htg, htgs⟩ := forall_mem_cons.mp hk
      obtain ⟨s₁, calls₁, calls₂, hobs, hrest, rfl⟩ := observeAll_cons_eq_some h
      obtain ⟨hfj, hcalls, hj⟩ := observe_other hobs htg
      obtain ⟨hfj', hcalls', hj'⟩ := ih hrest htgs
      refine ⟨hfj'.trans hfj, ?_, hj'.trans hj⟩
      rw [callsOf_append, hcalls, hcalls', append_nil]

theorem observeAll_self (h : observeAll P frame s tgs = some (s', calls))
    (hids : (tgs.map (·.id)).Nodup) (hmem : tg ∈ tgs) (htg : IsVehicle tg)
    (hv : s.fj[tg.id]? = some v) :
    (∃ v', s'.fj[tg.id]? = some v' ∧
      v'.bused = !leaves P s.jinfo (observed v (setTarget P frame.garbage tg frame.pkgtime))
        (observedTime frame.pkgtime v.timestamp)) ∧
      callsOf tg.id calls = [(tg.id, observedTime frame.pkgtime v.timestamp)] ∧
      s'.jinfo = s.jinfo := by
  induction tgs generalizing s calls with
  | nil => cases hmem
  | cons tg' tgs ih =>
      obtain ⟨hnot, hids'⟩ := nodup_cons.mp hids
      have hother : ∀ b ∈ tgs, tg'.id ≠ b.id := by
        intro b hb heq
        exact hnot (mem_map.mpr ⟨b, hb, heq.symm⟩)
      obtain ⟨s₁, calls₁, calls₂, hobs, hrest, rfl⟩ := observeAll_cons_eq_some h
      rcases mem_cons.mp hmem with rfl | hmem
      · obtain ⟨⟨v', hv', hb⟩, hcalls, hj⟩ := observe_self hobs htg hv
        obtain ⟨hfj, hcalls', hj'⟩ := observeAll_other hrest
          fun b hb hk => hother b hb hk.1.symm
        refine ⟨⟨v', hfj.trans hv', hb⟩, ?_, hj'.trans hj⟩
        rw [callsOf_append, hcalls, hcalls', append_nil]
      · obtain ⟨hfj, hcalls, hj⟩ := observe_other hobs fun hk => hother tg hmem hk.1
        obtain ⟨hrec, hcalls', hj'⟩ := ih hrest hids' hmem (hfj.trans hv)
        rw [hj] at hrec
        refine ⟨hrec, ?_, hj'.trans hj⟩
        rw [callsOf_append, hcalls, hcalls', nil_append]

/-- The second pass takes the vehicles whose flag is not set. -/
theorem junctionPlanning_callsOf {vehs vehs' : Table F L}
    (h : junctionPlanning P vehs info lights o dtime = some ((o', calls), vehs'))
    (hv : vehs[k]? = some v) : callsOf k calls = if v.bused then [] else [(k, dtime)] := by
  refine visitM_at (I := fun acc => callsOf k acc.2 = [])
    (J := fun acc => callsOf k acc.2 = if v.bused then [] else [(k, dtime)]) ?_ ?_ ?_ h hv rfl
  · intro acc k' w acc' r hne hstep hacc
    split_ifs at hstep
    · cases hstep
      exact hacc
    · extract_lets at hstep
      split at hstep
      · cases hstep
      · cases hstep
        rw [callsOf_append, hacc, callsOf_of_ne hne]
        rfl
  · intro acc acc' r hstep hacc
    split_ifs at hstep ⊢
    · cases hstep
      exact hacc
    · extract_lets at hstep
      split at hstep
      · cases hstep
      · cases hstep
        rw [callsOf_append, hacc, callsOf_self]
        rfl
  · intro acc k' w acc' r hne hstep hacc
    split_ifs at hstep
    · cases hstep
      exact hacc
    · extract_lets at hstep
      split at hstep
      · cases hstep
      · cases hstep
        rw [callsOf_append, hacc, callsOf_of_ne hne, append_nil]

omit [DecidableEq L] in
/-- Before the targets are looked at, the flag is cleared and the acceleration set. -/
theorem prepare_fj (h : prepare s frame = some s') (hv : s.fj[k]? = some v) :
    s'.jinfo = s.jinfo ∧ ∃ a, s'.fj[k]? = some { v with bused := false, a := a } := by
  obtain ⟨fj, hfj, rfl⟩ := map_eq_some_iff.mp h
  obtain ⟨a, ha⟩ := junctionIdmPlanning_accelerated hfj k
  refine ⟨rfl, a, ha.trans ?_⟩
  simp [resetStatus, ExtTreeMap.getElem?_map, hv]

/-! ## One frame -/

/-- `junction_process` ran once for the vehicle, with the given time step. -/
def AdvancedOnce (out : Output F) (k dtime : ℕ) : Prop := callsOf k out.calls = [(k, dtime)]

/-- An observed vehicle leaves the junction in this frame. -/
def LeavesJunction (P : Planner F L) (s : State F L) (frame : Frame F L) (tg : Target F) : Prop :=
  ∃ s₁ v, prepare s frame = some s₁ ∧ s₁.fj[tg.id]? = some v ∧
    leaves P s.jinfo (observed v (setTarget P frame.garbage tg frame.pkgtime))
      (observedTime frame.pkgtime v.timestamp) = true

/-- The record of the frame's vehicle carries the time of the frame before, and the vehicle
stays in the junction. -/
def InStep (P : Planner F L) (s : State F L) (frame : Frame F L) (v : VehItem F L) (tg : Target F) :
    Prop :=
  observedTime frame.pkgtime v.timestamp = getProcessTime s frame.pkgtime ∧
    ¬ LeavesJunction P s frame tg

/-- **One frame**: a vehicle of the junction's table is advanced once, with the time step of
the frame, iff it is not observed or is in step and stays in the junction. -/
theorem advancedOnce_iff {out : Output F}
    (h : improveFusionTargetToJunction P s frame = some (s', out))
    (hids : (frame.targets.map (·.id)).Nodup) (hv : s.fj[k]? = some v) :
    AdvancedOnce out k (getProcessTime s frame.pkgtime) ↔
      ∀ tg ∈ frame.targets, tg.id = k → IsVehicle tg → InStep P s frame v tg := by
  obtain ⟨s₁, s₂, calls, o, calls', fj, fm, hprep, hobs, hplan, -, -, rfl⟩ :=
    improveFusionTargetToJunction_eq_some h
  obtain ⟨hj, a, hv₁⟩ := prepare_fj hprep hv
  unfold AdvancedOnce
  rw [callsOf_append]
  by_cases hseen : ∃ tg ∈ frame.targets, tg.id = k ∧ IsVehicle tg
  · obtain ⟨tg, hmem, rfl, htg⟩ := hseen
    obtain ⟨⟨v', hv', hbused⟩, hcalls, -⟩ := observeAll_self hobs hids hmem htg hv₁
    rw [hcalls, junctionPlanning_callsOf hplan hv', hbused, hj]
    have hleaves : LeavesJunction P s frame tg ↔
        leaves P s.jinfo (observed { v with bused := false, a := a }
          (setTarget P frame.garbage tg frame.pkgtime))
          (observedTime frame.pkgtime v.timestamp) = true := by
      constructor
      · rintro ⟨s₁', w, hprep', hw, hleave⟩
        cases hprep.symm.trans hprep'
        cases hv₁.symm.trans hw
        exact hleave
      · exact fun hleave => ⟨s₁, _, hprep, hv₁, hleave⟩
    have honly : (∀ tg' ∈ frame.targets, tg'.id = tg.id → IsVehicle tg' → InStep P s frame v tg') ↔
        InStep P s frame v tg := by
      refine ⟨fun hall => hall tg hmem rfl htg, fun hin tg' hmem' hid _ => ?_⟩
      rwa [inj_on_of_nodup_map hids hmem' hmem hid]
    rw [honly, InStep, hleaves]
    cases leaves P s.jinfo (observed { v with bused := false, a := a }
      (setTarget P frame.garbage tg frame.pkgtime)) (observedTime frame.pkgtime v.timestamp) with
    | true => simp
    | false => simp
  · have hother : ∀ tg ∈ frame.targets, ¬ (tg.id = k ∧ IsVehicle tg) :=
      fun tg hmem htg => hseen ⟨tg, hmem, htg⟩
    obtain ⟨hfj, hcalls, -⟩ := observeAll_other hobs hother
    rw [hcalls, junctionPlanning_callsOf hplan (hfj.trans hv₁)]
    simp only [nil_append, Bool.false_eq_true, if_false, true_iff]
    exact fun tg hmem hid htg => absurd ⟨hid, htg⟩ (hother tg hmem)

/-! ## Runs -/

/-- **Every frame of every run**: the vehicles in the junction at the start of a frame that
are advanced exactly once, with the time step of the frame, are those that are not observed
and those that are in step and do not leave the junction. -/
theorem junction_pass_once_iff (P : Planner F L) (jinfo : Option (JuncionInfo F L))
    (before after : List (Frame F L)) (frame : Frame F L) (s' : State F L) (outs : List (Output F))
    (h : run (improveFusionTargetToJunction P) (State.init F L jinfo)
      (before ++ frame :: after) = some (s', outs))
    (hids : (frame.targets.map (·.id)).Nodup) :
    ∃ s outs₁ s₁ out, run (improveFusionTargetToJunction P) (State.init F L jinfo) before =
        some (s, outs₁) ∧
      improveFusionTargetToJunction P s frame = some (s₁, out) ∧ out ∈ outs ∧
      ∀ (k : ℕ) (v : VehItem F L), s.fj[k]? = some v →
        (AdvancedOnce out k (getProcessTime s frame.pkgtime) ↔
          ∀ tg ∈ frame.targets, tg.id = k → IsVehicle tg → InStep P s frame v tg) := by
  obtain ⟨s, outs₁, s₁, out, hbefore, hstep, hmem⟩ := run_middle h
  exact ⟨s, outs₁, s₁, out, hbefore, hstep, hmem, fun k v hv => advancedOnce_iff hstep hids hv⟩

theorem junction_pass_once_iff_crossing : ∃ s' outs,
    run (improveFusionTargetToJunction crossing) (State.init ℚ ℕ (some crossingJunction))
      ([crossingFrame 1000 (998 / 10)] ++ crossingFrame 2000 (1098 / 10) :: []) = some (s', outs) ∧
    ∃ s outs₁ s₁ out, run (improveFusionTargetToJunction crossing)
        (State.init ℚ ℕ (some crossingJunction)) [crossingFrame 1000 (998 / 10)] = some (s, outs₁) ∧
      improveFusionTargetToJunction crossing s (crossingFrame 2000 (1098 / 10)) = some (s₁, out) ∧
      out ∈ outs ∧ ∀ (k : ℕ) (v : VehItem ℚ ℕ), s.fj[k]? = some v →
        (AdvancedOnce out k (getProcessTime s 2000) ↔
          ∀ tg ∈ (crossingFrame 2000 (1098 / 10)).targets, tg.id = k → IsVehicle tg →
            InStep crossing s (crossingFrame 2000 (1098 / 10)) v tg) := by
  have hrun : (run (improveFusionTargetToJunction crossing)
      (State.init ℚ ℕ (some crossingJunction))
      ([crossingFrame 1000 (998 / 10)] ++ crossingFrame 2000 (1098 / 10) :: [])).isSome = true := by
    decide +kernel
  obtain ⟨⟨s', outs⟩, h⟩ := isSome_iff_exists.mp hrun
  exact ⟨s', outs, h, junction_pass_once_iff crossing (some crossingJunction)
    [crossingFrame 1000 (998 / 10)] [] (crossingFrame 2000 (1098 / 10)) s' outs h (by decide +kernel)⟩

/-- A vehicle that is seen on its way out of the junction is advanced twice. -/
theorem junction_process_runs_twice : ∃ s outs s₁ out,
    run (improveFusionTargetToJunction crossing) (State.init ℚ ℕ (some crossingJunction))
      [crossingFrame 1000 (998 / 10), crossingFrame 2000 (1098 / 10)] = some (s, outs) ∧
    improveFusionTargetToJunction crossing s (crossingFrame 3000 (1198 / 10)) = some (s₁, out) ∧
    ((crossingFrame 3000 (1198 / 10)).targets.map (·.id)).Nodup ∧ 7 ∈ s.fj ∧
    out.calls = [(7, 1000), (7, 1000)] ∧ ¬ AdvancedOnce out 7 (getProcessTime s 3000) := by
  have hrun : (run (improveFusionTargetToJunction crossing)
      (State.init ℚ ℕ (some crossingJunction))
      [crossingFrame 1000 (998 / 10), crossingFrame 2000 (1098 / 10)]).any (fun p =>
        (improveFusionTargetToJunction crossing p.1 (crossingFrame 3000 (1198 / 10))).any fun q =>
          p.1.fj.contains 7 && q.2.calls == [(7, 1000), (7, 1000)]) = true := by
    decide +kernel
  obtain ⟨⟨s, outs⟩, h, hstep⟩ := exists_of_any hrun
  obtain ⟨⟨s₁, out⟩, h', hboth⟩ := exists_of_any hstep
  obtain ⟨h7, hcalls⟩ := Bool.and_eq_true_iff.mp hboth
  have hcalls : out.calls = [(7, 1000), (7, 1000)] := beq_iff_eq.mp hcalls
  refine ⟨s, outs, s₁, out, h, h', by decide +kernel, ExtTreeMap.mem_iff_contains.mpr h7, hcalls, ?_⟩
  simp [AdvancedOnce, callsOf, hcalls]

end V2I.Snapshot
