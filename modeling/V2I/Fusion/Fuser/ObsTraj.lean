import V2I.Fusion.Fuser.Sync

/-!
# V2I.Fusion.Fuser.ObsTraj

The observation trajectories of `Fuser::UpdateVehicleObsTraj`. The table is filed under the
ids of the targets alone, although each device numbers its targets for itself.
-/

namespace V2I.Fusion

open List Option Machine

open Std (ExtTreeMap LawfulEqCmp)

variable {F M O P : Type}

/-! ## the table -/

/-- An entry of `vehicle_obsers_`: a `VehicleObs` with the members that are set here. -/
structure TrackedObs (O P : Type) where
  obs : VehicleObs O
  devid : ℤ
  trajectoryEnu : List P

/-- `std::map<int, spVehicleObs>` -/
abbrev VehicleObsers (O P : Type) := ExtTreeMap ℕ (TrackedObs O P)

/-- `VehicleBase::AddTrajectoryPoint` -/
def TrackedObs.addTrajectoryPoint (o : TrackedObs O P) (pt : P) : TrackedObs O P :=
  { o with trajectoryEnu := o.trajectoryEnu ++ [pt] }

/-- `current_vehicle_obs` -/
def currentVehicleObs (syncFrames : List (RaysunFrame O)) : VehicleObsers O P :=
  syncFrames.foldl
    (fun current frame =>
      frame.targets.foldl (fun current obs => current.insert obs.id ⟨obs, frame.devid, []⟩) current)
    ∅

section

variable (posEnu : O → P)

/-- The body of the loop over `current_vehicle_obs` -/
def addTrajectory (vehicleObsers : VehicleObsers O P) (o : TrackedObs O P) : VehicleObsers O P :=
  match vehicleObsers[o.obs.id]? with
  | none => vehicleObsers.insert o.obs.id (o.addTrajectoryPoint (posEnu o.obs.measured))
  | some old => vehicleObsers.insert o.obs.id (old.addTrajectoryPoint (posEnu o.obs.measured))

/-- `Fuser::UpdateVehicleObsTraj` -/
def updateVehicleObsTraj (vehicleObsers : VehicleObsers O P) (syncFrames : List (RaysunFrame O)) :
    VehicleObsers O P :=
  let current : VehicleObsers O P := currentVehicleObs syncFrames
  -- an observation that is not in the current frames is removed
  let vehicleObsers := vehicleObsers.filter fun _ o => o.obs.id ∈ current
  current.toList.foldl (fun vehicleObsers e => addTrajectory posEnu vehicleObsers e.2) vehicleObsers

end

/-! ## trajectories -/

/-- The targets of the synchronised frames, each with its device. -/
def targetsOf (syncFrames : List (RaysunFrame O)) : List (ℤ × VehicleObs O) :=
  syncFrames.flatMap fun frame => frame.targets.map fun obs => (frame.devid, obs)

/-- A target of a device, as last listed in a step. -/
def seenAs (devid : ℤ) (id : ℕ) (syncFrames : List (RaysunFrame O)) : Option (VehicleObs O) :=
  ((targetsOf syncFrames).filter fun p => p.1 = devid ∧ p.2.id = id).getLast?.map Prod.snd

section

variable (posEnu : O → P)

/-- The positions of a target of a device in the consecutive steps since it last reappeared. -/
def trajectoryOf (steps : List (List (RaysunFrame O))) (devid : ℤ) (id : ℕ) : List P :=
  ((steps.reverse.map (seenAs devid id)).takeWhile Option.isSome).reverse.filterMap
    (Option.map fun obs => posEnu obs.measured)

/-- The trajectory that the table has for a target of a device. -/
def kept (vehicleObsers : VehicleObsers O P) (devid : ℤ) (id : ℕ) : List P :=
  match vehicleObsers[id]? with
  | some o => if o.devid = devid then o.trajectoryEnu else []
  | none => []

/-- The table has the trajectories of all targets of all devices, and no others. -/
def Trajectories (steps : List (List (RaysunFrame O))) (vehicleObsers : VehicleObsers O P) : Prop :=
  ∀ devid id, kept vehicleObsers devid id = trajectoryOf posEnu steps devid id

end

/-- In the step, and against the table before it, a target id stands for one device. -/
structure NoClash (vehicleObsers : VehicleObsers O P) (syncFrames : List (RaysunFrame O)) :
    Prop where
  step : ∀ p ∈ targetsOf syncFrames, ∀ q ∈ targetsOf syncFrames, p.2.id = q.2.id → p.1 = q.1
  table : ∀ p ∈ targetsOf syncFrames, ∀ o, vehicleObsers[p.2.id]? = some o → o.devid = p.1

theorem trajectoryOf_append (posEnu : O → P) (steps : List (List (RaysunFrame O)))
    (syncFrames : List (RaysunFrame O)) (devid : ℤ) (id : ℕ) :
    trajectoryOf posEnu (steps ++ [syncFrames]) devid id =
      (seenAs devid id syncFrames).elim [] fun obs =>
        trajectoryOf posEnu steps devid id ++ [posEnu obs.measured] := by
  cases h : seenAs devid id syncFrames <;> simp [trajectoryOf, h]

variable {syncFrames : List (RaysunFrame O)}

theorem seenAs_eq_some {devid : ℤ} {id : ℕ} {obs : VehicleObs O}
    (h : seenAs devid id syncFrames = some obs) :
    (devid, obs) ∈ targetsOf syncFrames ∧ obs.id = id := by
  obtain ⟨p, hp, rfl⟩ := map_eq_some_iff.mp h
  obtain ⟨hmem, hp⟩ := mem_filter.mp (mem_of_getLast? hp)
  obtain ⟨rfl, hid⟩ := of_decide_eq_true hp
  exact ⟨hmem, hid⟩

theorem seenAs_isSome {p : ℤ × VehicleObs O} (h : p ∈ targetsOf syncFrames) :
    (seenAs p.1 p.2.id syncFrames).isSome := by
  rw [seenAs, isSome_map, getLast?_isSome]
  exact ne_nil_of_mem (mem_filter.mpr ⟨h, by simp⟩)

/-! ## one step -/

/-- The entry of the current frames under an id is the last target listed with it. -/
theorem getElem?_currentVehicleObs (syncFrames : List (RaysunFrame O)) (id : ℕ) :
    (currentVehicleObs syncFrames : VehicleObsers O P)[id]? =
      ((targetsOf syncFrames).filter fun p => p.2.id = id).getLast?.map
        fun p => ⟨p.2, p.1, []⟩ := by
  have hflat : (currentVehicleObs syncFrames : VehicleObsers O P) =
      (targetsOf syncFrames).foldl
        (fun current p => current.insert p.2.id ⟨p.2, p.1, []⟩) ∅ := by
    rw [targetsOf, foldl_flatMap]
    simp only [foldl_map, currentVehicleObs]
  rw [hflat, getElem?_foldl_insert fun p : ℤ × VehicleObs O => p.2.id]
  simp

/-- Observations are filed under their ids. -/
def Keyed (vehicleObsers : VehicleObsers O P) : Prop :=
  ∀ (id : ℕ) (o : TrackedObs O P), vehicleObsers[id]? = some o → o.obs.id = id

theorem keyed_currentVehicleObs (syncFrames : List (RaysunFrame O)) :
    Keyed (currentVehicleObs syncFrames : VehicleObsers O P) := by
  intro id o h
  rw [getElem?_currentVehicleObs] at h
  obtain ⟨p, hp, rfl⟩ := map_eq_some_iff.mp h
  exact of_decide_eq_true (mem_filter.mp (mem_of_getLast? hp)).2

section

variable {posEnu : O → P} {vehicleObsers : VehicleObsers O P} {syncFrames : List (RaysunFrame O)}

theorem addTrajectory_eq_insert {o : TrackedObs O P} {id : ℕ} (h : o.obs.id = id) :
    addTrajectory posEnu vehicleObsers o = vehicleObsers.insert id
      ((vehicleObsers[id]?.getD o).addTrajectoryPoint (posEnu o.obs.measured)) := by
  subst h
  unfold addTrajectory
  cases vehicleObsers[o.obs.id]? <;> rfl

/-- **One step**: an id of the current frames goes on with what was there, or starts. -/
theorem getElem?_updateVehicleObsTraj (h : Keyed vehicleObsers) (id : ℕ) :
    (updateVehicleObsTraj posEnu vehicleObsers syncFrames)[id]? =
      (currentVehicleObs syncFrames : VehicleObsers O P)[id]?.map fun o =>
        (vehicleObsers[id]?.getD o).addTrajectoryPoint (posEnu o.obs.measured) := by
  have hstep : ∀ (m : VehicleObsers O P), ∀ e ∈
      (currentVehicleObs syncFrames : VehicleObsers O P).toList, addTrajectory posEnu m e.2 =
        m.insert e.1 ((m[e.1]?.getD e.2).addTrajectoryPoint (posEnu e.2.obs.measured)) :=
    fun m e he => addTrajectory_eq_insert (keyed_currentVehicleObs syncFrames _ _
      (ExtTreeMap.mem_toList_iff_getElem?_eq_some.mp he))
  rw [updateVehicleObsTraj, foldl_ext _ _ _ hstep]
  refine (getElem?_foldl_toList_insert (g := fun (old : Option (TrackedObs O P)) o =>
    (old.getD o).addTrajectoryPoint (posEnu o.obs.measured)) _ _ _).trans ?_
  rw [ExtTreeMap.getElem?_filter']
  cases hcurrent : (currentVehicleObs syncFrames : VehicleObsers O P)[id]? with
  | none =>
      have hmem : id ∉ (currentVehicleObs syncFrames : VehicleObsers O P) := by
        rw [ExtTreeMap.mem_iff_isSome_getElem?, hcurrent]
        exact Bool.false_ne_true
      rw [map_none, map_none, none_or, filter_eq_none_iff]
      intro o ho
      rw [h id o ho]
      simpa using hmem
  | some o =>
      have hmem : id ∈ (currentVehicleObs syncFrames : VehicleObsers O P) := by
        rw [ExtTreeMap.mem_iff_isSome_getElem?, hcurrent]
        rfl
      have hall : vehicleObsers[id]?.filter
          (fun o => o.obs.id ∈ (currentVehicleObs syncFrames : VehicleObsers O P)) =
            vehicleObsers[id]? := by
        cases hold : vehicleObsers[id]? with
        | none => rfl
        | some old => simp [Option.filter, h id old hold, hmem]
      rw [hall]
      rfl

theorem Keyed.updateVehicleObsTraj (h : Keyed vehicleObsers) :
    Keyed (updateVehicleObsTraj posEnu vehicleObsers syncFrames) := by
  intro id o ho
  rw [getElem?_updateVehicleObsTraj h] at ho
  obtain ⟨o', ho', rfl⟩ := map_eq_some_iff.mp ho
  cases hold : vehicleObsers[id]? with
  | none => exact keyed_currentVehicleObs syncFrames id o' ho'
  | some old => exact h id old hold

/-- A trajectory in the table has an entry of the device. -/
theorem exists_of_kept_ne_nil {devid : ℤ} {id : ℕ} (h : kept vehicleObsers devid id ≠ []) :
    ∃ o, vehicleObsers[id]? = some o ∧ o.devid = devid := by
  unfold kept at h
  split at h
  · next o ho =>
      split_ifs at h with hdev
      · exact ⟨o, ho, hdev⟩
      · exact absurd rfl h
  · exact absurd rfl h

variable {steps : List (List (RaysunFrame O))}

/-- A target in the current frames has an entry of its device, where the trajectories hold. -/
theorem Trajectories.exists_of_mem (h : Trajectories posEnu (steps ++ [syncFrames]) vehicleObsers)
    {p : ℤ × VehicleObs O} (hp : p ∈ targetsOf syncFrames) :
    ∃ o, vehicleObsers[p.2.id]? = some o ∧ o.devid = p.1 := by
  refine exists_of_kept_ne_nil ?_
  obtain ⟨obs, hobs⟩ := isSome_iff_exists.mp (seenAs_isSome hp)
  rw [h, trajectoryOf_append, hobs, elim_some]
  exact concat_ne_nil _ _

/-- Where an id stands for one device, its entry in the current frames is of that device. -/
theorem getElem?_currentVehicleObs_of_noClash (h : NoClash vehicleObsers syncFrames) {devid : ℤ}
    {id : ℕ} {obs : VehicleObs O} (hobs : seenAs devid id syncFrames = some obs) :
    (currentVehicleObs syncFrames : VehicleObsers O P)[id]? = some ⟨obs, devid, []⟩ := by
  obtain ⟨hmem, hid⟩ := seenAs_eq_some hobs
  have hfilter : (targetsOf syncFrames).filter (fun p => p.2.id = id) =
      (targetsOf syncFrames).filter (fun p => p.1 = devid ∧ p.2.id = id) := by
    refine filter_congr fun p hp => ?_
    rw [decide_eq_decide]
    exact (and_iff_right_of_imp fun hpid => h.step p hp _ hmem (hpid.trans hid.symm)).symm
  obtain ⟨p, hp, rfl⟩ := map_eq_some_iff.mp hobs
  have hdev := of_decide_eq_true (mem_filter.mp (mem_of_getLast? hp)).2
  rw [getElem?_currentVehicleObs, hfilter, hp, map_some, hdev.1]

/-- **The condition on a step** is exact. -/
theorem trajectories_append_iff (hkey : Keyed vehicleObsers)
    (h : Trajectories posEnu steps vehicleObsers) :
    Trajectories posEnu (steps ++ [syncFrames])
        (updateVehicleObsTraj posEnu vehicleObsers syncFrames) ↔
      NoClash vehicleObsers syncFrames := by
  constructor
  · intro hafter
    refine ⟨fun p hp q hq hid => ?_, fun p hp o ho => ?_⟩
    · obtain ⟨o, ho, hdev⟩ := hafter.exists_of_mem hp
      obtain ⟨o', ho', hdev'⟩ := hafter.exists_of_mem hq
      rw [hid, ho', some_inj] at ho
      rw [← hdev, ← hdev', ho]
    · obtain ⟨o', ho', hdev⟩ := hafter.exists_of_mem hp
      rw [getElem?_updateVehicleObsTraj hkey, ho] at ho'
      obtain ⟨c, -, rfl⟩ := map_eq_some_iff.mp ho'
      exact hdev
  · intro hclash devid id
    rw [trajectoryOf_append]
    cases hseen : seenAs devid id syncFrames with
    | none =>
        by_contra hne
        obtain ⟨o, ho, hdev⟩ := exists_of_kept_ne_nil hne
        rw [getElem?_updateVehicleObsTraj hkey] at ho
        obtain ⟨c, hc, rfl⟩ := map_eq_some_iff.mp ho
        rw [getElem?_currentVehicleObs] at hc
        obtain ⟨p, hp, rfl⟩ := map_eq_some_iff.mp hc
        obtain ⟨hmem, hid⟩ := mem_filter.mp (mem_of_getLast? hp)
        have hid : p.2.id = id := of_decide_eq_true hid
        -- whichever of the two went on, its device is that of the target
        have hpdev : p.1 = devid := by
          rw [← hdev]
          cases hold : vehicleObsers[id]? with
          | none => rfl
          | some old => exact (hclash.table p hmem old (hid ▸ hold)).symm
        have hsome := seenAs_isSome hmem
        rw [hpdev, hid, hseen] at hsome
        cases hsome
    | some obs =>
        obtain ⟨hmem, hid⟩ := seenAs_eq_some hseen
        have hbefore := h devid id
        rw [kept, getElem?_updateVehicleObsTraj hkey,
          getElem?_currentVehicleObs_of_noClash hclash hseen, map_some, elim_some, ← hbefore, kept]
        cases hold : vehicleObsers[id]? with
        | none => simp [TrackedObs.addTrajectoryPoint]
        | some old =>
            have hdev : old.devid = devid := hclash.table _ hmem old (hid ▸ hold)
            simp [TrackedObs.addTrajectoryPoint, hdev]

end

/-! ## runs -/

/-- The service with the observations of its fusers. -/
structure ObsService (F M O P : Type) where
  service : Service F M O
  vehicleObsers : String → VehicleObsers O P

/-- The service right after its start. -/
def ObsService.new (F M O P : Type) : ObsService F M O P := ⟨Service.new F M O, fun _ => ∅⟩

section

variable [Double F] (K : Kinematics M O) (posEnu : O → P) (duration : ℕ)

/-- The synchronised frames of a frame; a late one has none. -/
def syncFramesOf (s : Fuser F M O) (frame : RaysunFrame O) : Option (List (RaysunFrame O)) :=
  if frame.timestamp ≤ s.currentTime then none
  else some (getSyncFrames K (pushBack duration s.namedBuff frame) frame)

/-- `Fuser::ProcessOneFrame` with its call of `UpdateVehicleObsTraj`. -/
def onFrameObs (s : ObsService F M O P) (call : String × RaysunFrame O) :
    Option (ObsService F M O P × String × Option (List (RaysunFrame O))) :=
  (onFrame K duration s.service call).map fun r =>
    match syncFramesOf K duration (s.service.fusers call.1) call.2 with
    | none => ({ s with service := r.1 }, call.1, none)
    | some syncFrames =>
        let obsers := updateVehicleObsTraj posEnu (s.vehicleObsers call.1) syncFrames
        (⟨r.1, Function.update s.vehicleObsers call.1 obsers⟩, call.1, some syncFrames)

/-- The steps of the fuser of one junction. -/
def stepsOf (vid : String) (log : List (String × Option (List (RaysunFrame O)))) :
    List (List (RaysunFrame O)) :=
  log.filterMap fun r => if r.1 = vid then r.2 else none

end

section

variable [Double F] {K : Kinematics M O} {posEnu : O → P} {duration : ℕ}

omit [Double F] in
theorem stepsOf_append (vid : String) (log : List (String × Option (List (RaysunFrame O))))
    (r : String × Option (List (RaysunFrame O))) :
    stepsOf vid (log ++ [r]) = stepsOf vid log ++ (if r.1 = vid then r.2 else none).toList := by
  rw [stepsOf, filterMap_append, stepsOf]
  cases h : (if r.1 = vid then r.2 else none) <;> simp [h]

variable {r : String × Option (List (RaysunFrame O))} {call : String × RaysunFrame O}
    {s' s : ObsService F M O P}

/-- **A frame of one junction**: a late one leaves the observations alone. -/
theorem onFrameObs_cases (h : onFrameObs K posEnu duration s call = some (s', r)) :
    r = (call.1, syncFramesOf K duration (s.service.fusers call.1) call.2) ∧
      ∀ vid, s'.vehicleObsers vid = match (if call.1 = vid then r.2 else none) with
        | none => s.vehicleObsers vid
        | some syncFrames => updateVehicleObsTraj posEnu (s.vehicleObsers vid) syncFrames := by
  obtain ⟨p, -, hp⟩ := map_eq_some_iff.mp h
  cases hsync : syncFramesOf K duration (s.service.fusers call.1) call.2 with
  | none =>
      rw [hsync] at hp
      cases hp
      exact ⟨rfl, fun vid => by simp⟩
  | some syncFrames =>
      rw [hsync] at hp
      cases hp
      refine ⟨rfl, fun vid => ?_⟩
      by_cases hvid : call.1 = vid
      · subst hvid
        simp
      · simp [hvid, Ne.symm hvid]

/-- The observations of every fuser are filed under their ids and have the trajectories. -/
def ObsService.Sound (posEnu : O → P) (s : ObsService F M O P)
    (log : List (String × Option (List (RaysunFrame O)))) : Prop :=
  ∀ vid, Keyed (s.vehicleObsers vid) ∧
    Trajectories posEnu (stepsOf vid log) (s.vehicleObsers vid)

omit [Double F] in
theorem ObsService.sound_new : (ObsService.new F M O P).Sound posEnu [] := by
  refine fun vid => ⟨fun id o h => ?_, fun devid id => ?_⟩
  · simp [ObsService.new] at h
  · simp [kept, ObsService.new, trajectoryOf, stepsOf]

theorem onFrameObs_keyed (h : onFrameObs K posEnu duration s call = some (s', r)) {vid : String}
    (hs : Keyed (s.vehicleObsers vid)) : Keyed (s'.vehicleObsers vid) := by
  rw [(onFrameObs_cases h).2]
  cases if call.1 = vid then r.2 else none with
  | none => exact hs
  | some syncFrames => exact hs.updateVehicleObsTraj

/-- **One frame** keeps the trajectories if and only if its step has no clash. -/
theorem onFrameObs_trajectories_iff {log : List (String × Option (List (RaysunFrame O)))}
    (h : onFrameObs K posEnu duration s call = some (s', r)) (hs : s.Sound posEnu log) :
    (∀ vid, Trajectories posEnu (stepsOf vid (log ++ [r])) (s'.vehicleObsers vid)) ↔
      ∀ syncFrames ∈ syncFramesOf K duration (s.service.fusers call.1) call.2,
        NoClash (s.vehicleObsers call.1) syncFrames := by
  obtain ⟨hr, hobsers⟩ := onFrameObs_cases h
  simp only [hobsers, stepsOf_append]
  subst hr
  constructor
  · intro hall syncFrames hsync
    have hvid := hall call.1
    rw [mem_def] at hsync
    simp only [if_true, hsync, toList_some] at hvid
    exact (trajectories_append_iff (hs call.1).1 (hs call.1).2).mp hvid
  · intro hclash vid
    by_cases hvid : call.1 = vid
    · subst hvid
      cases hsync : syncFramesOf K duration (s.service.fusers call.1) call.2 with
      | none => simpa [hsync] using (hs call.1).2
      | some syncFrames =>
          simp only [if_true, toList_some]
          exact (trajectories_append_iff (hs call.1).1 (hs call.1).2).mpr
            (hclash syncFrames hsync)
    · simpa [hvid] using (hs vid).2

/-- **Trajectories by target id alone** are those of the targets of the devices in every state
of a run, of the frames of any junctions, exactly when in each of its steps a target id stands
for one device, among the frames combined and against the table before. -/
theorem trajectories_iff (calls : List (String × RaysunFrame O)) :
    (∀ pre, pre <+: calls → ∀ s log,
      run (onFrameObs K posEnu duration) (ObsService.new F M O P) pre = some (s, log) →
        ∀ vid, Trajectories posEnu (stepsOf vid log) (s.vehicleObsers vid)) ↔
      Guarded (onFrameObs K posEnu duration)
        (fun s call => (onFrameObs K posEnu duration s call).isSome →
          ∀ syncFrames ∈ syncFramesOf K duration (s.service.fusers call.1) call.2,
            NoClash (s.vehicleObsers call.1) syncFrames)
        (ObsService.new F M O P) calls := by
  refine run_iff_guarded_log (I := ObsService.Sound posEnu)
    (fun s log hs vid => (hs vid).2) (fun s c s' r log hs hstep hclash vid => ?_)
    (fun s c s' r log hs hstep hclash hafter => ?_) [] ObsService.sound_new
  · exact ⟨onFrameObs_keyed hstep (hs vid).1,
      (onFrameObs_trajectories_iff hstep hs).mpr hclash vid⟩
  · exact hclash ((onFrameObs_trajectories_iff hstep hs).mp hafter)

end

/-- Device 1 reports its target 1, then device 2 a target 1 of its own: the table has no
trajectory for it. -/
theorem trajectories_counterexample :
    ¬ ∀ (calls : List (String × RaysunFrame ℕ)) (s : ObsService ℚ Unit ℕ ℕ)
      (log : List (String × Option (List (RaysunFrame ℕ)))),
      run (onFrameObs still id 1500) (ObsService.new ℚ Unit ℕ ℕ) calls = some (s, log) →
        ∀ vid, Trajectories id (stepsOf vid log) (s.vehicleObsers vid) := by
  intro hall
  have hrun : (run (onFrameObs still id 1500) (ObsService.new ℚ Unit ℕ ℕ)
      [("j", oneTarget 1 10 7), ("j", oneTarget 2 11 9)]).any (fun p =>
        kept (p.1.vehicleObsers "j") 2 1 = [] ∧ trajectoryOf id (stepsOf "j" p.2) 2 1 = [9]) := by
    simp only [run, onFrameObs, syncFramesOf, onFrame, processOneFrame, pushBack_eq]
    decide +kernel
  obtain ⟨⟨s, log⟩, hrun, hboth⟩ := exists_of_any hrun
  obtain ⟨hkept, htrajectory⟩ := of_decide_eq_true hboth
  rw [hall _ s log hrun "j" 2 1, htrajectory] at hkept
  cases hkept

end V2I.Fusion
