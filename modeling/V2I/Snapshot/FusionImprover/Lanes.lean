import V2I.Snapshot.FusionImprover.Owners
import V2I.Snapshot.FusionImprover.Roads

/-!
# V2I.Snapshot.FusionImprover.Lanes

Null pointers. The planner dereferences the current lane segment of a vehicle without looking
whether it is there. On the roads it always is; in the junction `status_process` counts on what
`get_adc_and_point` returns, and stores it.
-/

namespace V2I.Snapshot

open Std List Option Double Machine

variable {F L : Type} [Double F] [DecidableEq L] {P : Planner F L}

/-! ## The junction -/

/-- The call of `status_process` behind `junction_change_lane`: the vehicle and `len`. -/
def enterCall (P : Planner F L) (v : VehItem F L) (lane : JuncLaneInfo L) (len : F) (dtime : ℕ)
    (self : Bool) : Option (VehItem F L × F) :=
  (junctionChangeLane P v lane len self).map fun v => ((getVehcleDistance v dtime).2, len)

/-- The call of `status_process` in front of the stop line. -/
def approachCall (v : VehItem F L) (s : F) : Option (VehItem F L × F) :=
  if Double.lt (v.pt.s + ofRat 1) s then some (v, s - v.pt.s - ofRat (2 / 10))
  else none

/-- The call of `status_process` for a vehicle on an incoming lane. -/
def incommingCall (P : Planner F L) (lights : ExtTreeMap ℤ ℤ) (v : VehItem F L) (dtime : ℕ)
    (real : Bool) (found : ℕ × IncommingRoad F L × ℤ × JuncLaneInfo L) : Option (VehItem F L × F) :=
  let road := found.2.1
  let lane := found.2.2.2
  match lane.nextLanes[(0 : ℤ)]? with
  | none => none
  | some next =>
      let enableRun := lightEnabled lights next.lightId
      let v := if enableRun && Double.lt v.speed (ofRat 5) && !real
        then { v with speed := ofRat 9 } else v
      let len := normalSpeed v.speed * mstos (ofInt dtime)
      let ts := len + v.pt.s
      if Double.lt ts road.s then some (v, len)
      else if enableRun then enterCall P v lane (ts - road.s) dtime true
      else if Double.lt v.speed (ofRat 10) then
        approachCall { v with speed := ofRat 0 } road.s
      else
        match getNextEnableLaneseg road lights lane.laneId with
        | none => none
        | some (some (_, lane')) => enterCall P v lane' (ts - road.s) dtime false
        | some none => approachCall v road.s

/-- The call of `status_process` in `junction_process`, if there is one. -/
def statusCall (P : Planner F L) (info : Option (JuncionInfo F L)) (lights : ExtTreeMap ℤ ℤ)
    (v : VehItem F L) (dtime : ℕ) (real : Bool) : Option (VehItem F L × F) :=
  if v.status = 0 then
    (incommingLane info v.curLane).bind (incommingCall P lights v dtime real)
  else some ((getVehcleDistance v dtime).2, (getVehcleDistance v dtime).1)

variable {v : VehItem F L}

omit [Double F] [DecidableEq L] in
theorem countVehicle_isSome {n : Option L} (hlane : v.curLane.isSome) (hn : n.isSome) :
    (countVehicle P v info n).isSome := by
  obtain ⟨cur, hcur⟩ := isSome_iff_exists.mp hlane
  obtain ⟨next, rfl⟩ := isSome_iff_exists.mp hn
  unfold countVehicle updateIncommingVehicle updateOutgoingVehicle
  grind

omit [DecidableEq L] in
theorem driftAcross_curLane (v : VehItem F L) (dtime : F) :
    (driftAcross v dtime).curLane = v.curLane := by
  unfold driftAcross
  grind

omit [DecidableEq L] in
theorem getVehcleDistance_curLane (v : VehItem F L) (dtime : ℕ) :
    (getVehcleDistance v dtime).2.curLane = v.curLane := by
  unfold getVehcleDistance
  grind

variable {v' : VehItem F L}

omit [DecidableEq L] in
theorem junctionChangeLane_curLane (h : junctionChangeLane P v lane len self = some v') :
    v'.curLane.isSome := by
  unfold junctionChangeLane at h
  grind

/-- A call of `status_process` gets a lane segment from `get_adc_and_point`. -/
def Leads (P : Planner F L) (v : VehItem F L) (len : F) : Prop :=
  ∀ cur, v.curLane = some cur → (P.getAdcAndPoint cur len v.pt v.pt v.hdg v.width).lane.isSome

omit [DecidableEq L] in
/-- Where a lane segment follows, `status_process` goes on to it. -/
theorem statusProcess_ok {len : F} (info : Option (JuncionInfo F L)) (t : F)
    (hlane : v.curLane.isSome) (hnext : Leads P v len) :
    ∃ v', statusProcess P v info len t = some v' ∧ v'.curLane.isSome := by
  obtain ⟨cur, hcur⟩ := isSome_iff_exists.mp hlane
  have hr := hnext cur hcur
  unfold statusProcess
  simp only [hcur]
  generalize P.getAdcAndPoint cur len v.pt v.pt v.hdg v.width = r at hr ⊢
  have hcount : (countVehicle P { v with width := r.w } info r.lane).isSome :=
    countVehicle_isSome hlane hr
  rw [hcur] at hcount
  obtain ⟨w, hw⟩ := isSome_iff_exists.mp hcount
  simp only [hw]
  refine ⟨_, rfl, ?_⟩
  rw [driftAcross_curLane]
  exact hr

variable {c : VehItem F L × F}

omit [DecidableEq L] in
theorem enterCall_curLane (h : enterCall P v lane len dtime self = some c) :
    c.1.curLane.isSome := by
  obtain ⟨w, hw, rfl⟩ := Option.map_eq_some_iff.mp h
  rw [getVehcleDistance_curLane]
  exact junctionChangeLane_curLane hw

omit [DecidableEq L] in
theorem approachCall_curLane (h : approachCall v s = some c) (hlane : v.curLane.isSome) :
    c.1.curLane.isSome := by
  obtain ⟨-, h⟩ | ⟨-, h⟩ := ite_eq_iff.mp h
  · cases h
    exact hlane
  · cases h

omit [DecidableEq L] in
theorem incommingCall_curLane (h : incommingCall P lights v dtime real found = some c)
    (hlane : v.curLane.isSome) : c.1.curLane.isSome := by
  unfold incommingCall at h
  extract_lets at h
  split at h
  · cases h
  · extract_lets enableRun w len ts at h
    have hw : w.curLane.isSome := by grind
    split_ifs at h
    · cases h
      exact hw
    · exact enterCall_curLane h
    · exact approachCall_curLane h hw
    · split at h
      · cases h
      · exact enterCall_curLane h
      · exact approachCall_curLane h hw

theorem statusCall_curLane (h : statusCall P info lights v dtime real = some c)
    (hlane : v.curLane.isSome) : c.1.curLane.isSome := by
  unfold statusCall at h
  split_ifs at h
  · obtain ⟨found, -, h⟩ := bind_eq_some_iff.mp h
    exact incommingCall_curLane h hlane
  · cases h
    rw [getVehcleDistance_curLane]
    exact hlane

/-- Where a vehicle is after `junction_process`: where its call of `status_process` leads, and
without one where it was. -/
def Goes (P : Planner F L) (info : Option (JuncionInfo F L)) (dtime : ℕ)
    (call : Option (VehItem F L × F)) (v v' : VehItem F L) : Prop :=
  (call = none ∧ v'.curLane = v.curLane) ∨
    ∃ c w, call = some c ∧ statusProcess P c.1 info c.2 (ofInt dtime) = some w ∧
      v'.curLane = w.curLane

omit [DecidableEq L] in
theorem enterJunction_goes
    (h : enterJunction P info o v road key lane len dtime self = some (v', o')) :
    Goes P info dtime (enterCall P v lane len dtime self) v v' := by
  unfold enterJunction at h
  split at h
  · cases h
  · next w hchange =>
      obtain ⟨x, hx, heq⟩ := Option.map_eq_some_iff.mp h
      cases heq
      refine .inr ⟨(_, len), _, ?_, hx, rfl⟩
      rw [enterCall, hchange]
      rfl

omit [DecidableEq L] in
theorem approachStopLine_goes {standing : VehItem F L}
    (h : (approachStopLine P info v s dtime standing).map (·, o) = some (v', o'))
    (hs : standing.curLane = v.curLane) : Goes P info dtime (approachCall v s) v v' := by
  obtain ⟨w, hw, heq⟩ := Option.map_eq_some_iff.mp h
  cases heq
  unfold approachStopLine at hw
  split at hw
  · next hlt => exact .inr ⟨_, _, if_pos hlt, hw, rfl⟩
  · next hlt =>
      cases hw
      exact .inl ⟨if_neg hlt, hs⟩

omit [DecidableEq L] in
theorem incommingProcess_goes
    (h : incommingProcess P info lights o v dtime real found = some (v', o')) :
    Goes P info dtime (incommingCall P lights v dtime real found) v v' := by
  simp only [incommingProcess] at h
  simp only [incommingCall]
  cases hnext : found.2.2.2.nextLanes[(0 : ℤ)]? with
  | none => simp only [hnext] at h; cases h
  | some next =>
      simp only [hnext] at h ⊢
      generalize hv : (if (lightEnabled lights next.lightId && Double.lt v.speed (ofRat 5) &&
        !real) then { v with speed := ofRat 9 } else v) = w at h ⊢
      have hw : w.curLane = v.curLane := by grind
      unfold Goes
      rw [← hw]
      split_ifs at h ⊢
      · obtain ⟨x, hx, heq⟩ := Option.map_eq_some_iff.mp h
        cases heq
        exact .inr ⟨_, _, rfl, hx, rfl⟩
      · exact enterJunction_goes h
      · exact approachStopLine_goes h rfl
      · cases hside : getNextEnableLaneseg found.2.1 lights found.2.2.2.laneId with
        | none => simp only [hside] at h; cases h
        | some side =>
            simp only [hside] at h
            cases side with
            | none => exact approachStopLine_goes h rfl
            | some lane' => exact enterJunction_goes h

omit [DecidableEq L] in
theorem insideProcess_goes (h : insideProcess P info o v dtime = some (v', o')) :
    Goes P info dtime (some ((getVehcleDistance v dtime).2, (getVehcleDistance v dtime).1))
      v v' := by
  obtain ⟨w, hst, rfl | rfl, -⟩ := insideProcess_eq_some h <;> exact .inr ⟨_, _, rfl, hst, rfl⟩

/-- **`junction_process`** moves a vehicle by its call of `status_process` only. -/
theorem junctionProcess_goes (h : junctionProcess P info lights o v dtime real = some (v', o')) :
    Goes P info dtime (statusCall P info lights v dtime real) v v' := by
  unfold junctionProcess at h
  unfold statusCall
  by_cases hst : v.status = 0
  · rw [if_pos hst] at h ⊢
    cases hfound : incommingLane info v.curLane with
    | none =>
        simp only [hfound] at h
        cases h
        exact .inl ⟨rfl, rfl⟩
    | some found =>
        simp only [hfound] at h
        exact incommingProcess_goes h
  · rw [if_neg hst] at h ⊢
    exact insideProcess_goes h

theorem junctionProcess_curLane (hlane : v.curLane.isSome)
    (hcall : ∀ c, statusCall P info lights v dtime real = some c → Leads P c.1 c.2)
    (h : junctionProcess P info lights o v dtime real = some (v', o')) : v'.curLane.isSome := by
  obtain ⟨-, hv⟩ | ⟨c, w, hc, hw, hv⟩ := junctionProcess_goes h
  · rw [hv]
    exact hlane
  · obtain ⟨w', hw', hlane'⟩ := statusProcess_ok (P := P) info (ofInt dtime)
      (statusCall_curLane hc hlane) (hcall c hc)
    rw [hw] at hw'
    cases hw'
    rw [hv]
    exact hlane'

/-! ## The calls of a frame -/

/-- The call of `update_status` in `normal_planning`. -/
def updateCall (P : Planner F L) (status : Table F L) (veh : VehItem F L) :
    Option (VehItem F L × VehItem F L × Option L) :=
  match status[veh.vehItem.id]? with
  | none => none
  | some st =>
      if st.badItem then none
      else
        let found := P.findLaneseg veh.pt.pt veh.hdg
        let veh := { veh with pt := { veh.pt with pt := found.src }, hdg := found.hdg }
        match found.lane with
        | none => some ({ st with bused := true }, veh, none)
        | some laneseg =>
            if Double.isnan st.pt.s || (st.curLane = some laneseg && st.status = 0) then none
            else
              some ({ st with bused := true },
                { veh with curLane := some laneseg, pt := found.center }, some laneseg)

/-- A call that dereferences the current lane segment of a vehicle, or its lane change. -/
inductive Deref (F L : Type) where
  | status (v : VehItem F L) (len : F) (dtime : ℕ)
  | update (vs veh : VehItem F L) (ls : Option L)
  | missing (v : VehItem F L) (dtime : ℕ)

/-- The vehicle has a lane segment, and on a road a lane change under way has its record, with a
destination as long as a second half is ahead. -/
def Deref.Pointers : Deref F L → Prop
  | .status v _ _ => v.curLane.isSome
  | .update vs _ _ =>
      vs.curLane.isSome ∧
        (vs.status = 1 → ∃ c, vs.cinfo = some c ∧ (c.step2Totaltime ≠ 0 → c.dstLane.isSome))
  | .missing v _ => v.curLane.isSome

/-- The call returns: it comes to no null pointer. -/
def Deref.Returns (P : Planner F L) (info : Option (JuncionInfo F L)) : Deref F L → Prop
  | .status v len dtime => (statusProcess P v info len (ofInt dtime)).isSome
  | .update vs veh ls => (updateStatus P vs veh ls).isSome
  | .missing v dtime => (missingStep P v dtime).isSome

/-- The calls of a frame, up to where it ends. -/
inductive Made (P : Planner F L) (s : State F L) (frame : Frame F L) : Deref F L → Prop where
  /-- `junction_process` for a target of the frame -/
  | observed {s₁ s₂ pre tg post calls v c} : prepare s frame = some s₁ →
      frame.targets = pre ++ tg :: post → observeAll P frame s₁ pre = some (s₂, calls) →
      targetTypeCar ≤ tg.cls → s₂.fj[tg.id]? = some v →
      statusCall P s₂.jinfo s₂.lights (observed v (setTarget P frame.garbage tg frame.pkgtime))
        (observedTime frame.pkgtime v.timestamp) true = some c →
      Made P s frame (.status c.1 c.2 (observedTime frame.pkgtime v.timestamp))
  /-- `normal_planning` for a target of the frame -/
  | normal {s₁ s₂ pre tg post calls c} : prepare s frame = some s₁ →
      frame.targets = pre ++ tg :: post → observeAll P frame s₁ pre = some (s₂, calls) →
      targetTypeCar ≤ tg.cls → tg.id ∉ s₂.fj → tg.id ∉ s₂.fm →
      updateCall P s₂.fn (setTarget P frame.garbage tg frame.pkgtime) = some c →
      Made P s frame (.update c.1 c.2.1 c.2.2)
  /-- `junction_process` for a vehicle that no target was about -/
  | unobserved {s₁ s₂ calls pre e post c} : prepare s frame = some s₁ →
      observeAll P frame s₁ frame.targets = some (s₂, calls) → s₂.fj.toList = pre ++ e :: post →
      (∀ e' ∈ pre, e'.2.bused = false → ∃ o, (junctionProcess P s₂.jinfo s₂.lights o
        (unobserved e'.2 (getProcessTime s frame.pkgtime)) (getProcessTime s frame.pkgtime)
        false).isSome) →
      e.2.bused = false →
      statusCall P s₂.jinfo s₂.lights (unobserved e.2 (getProcessTime s frame.pkgtime))
        (getProcessTime s frame.pkgtime) false = some c →
      Made P s frame (.status c.1 c.2 (getProcessTime s frame.pkgtime))
  /-- `missing_planning` -/
  | missing {s₁ s₂ calls r pre e post} : prepare s frame = some s₁ →
      observeAll P frame s₁ frame.targets = some (s₂, calls) →
      junctionPlanning P s₂.fj s₂.jinfo s₂.lights s₂.owners (getProcessTime s frame.pkgtime) =
        some r →
      s₂.fm.toList = pre ++ e :: post →
      (∀ e' ∈ pre, (missingStep P e'.2 (getProcessTime s frame.pkgtime)).isSome) →
      e.2.badItem = false →
      Made P s frame (.missing e.2 (getProcessTime s frame.pkgtime))

/-- Every call of `status_process` in a frame gets a lane segment from `get_adc_and_point`. -/
def RoadAhead (P : Planner F L) (s : State F L) (frame : Frame F L) : Prop :=
  ∀ v len dtime, Made P s frame (.status v len dtime) → Leads P v len

/-- No frame of a run dereferences a null pointer. -/
def LanesDefined (P : Planner F L) (s : State F L) (frames : List (Frame F L)) : Prop :=
  ∀ pre frame post, frames = pre ++ frame :: post → ∀ s' outs,
    run (improveFusionTargetToJunction P) s pre = some (s', outs) →
    ∀ call, Made P s' frame call → call.Pointers ∧ call.Returns P s'.jinfo

/-! ## Tables -/

/-- All records of a table. -/
def Holds (Q : VehItem F L → Prop) (t : Table F L) : Prop :=
  ∀ (k : ℕ) (v : VehItem F L), t[k]? = some v → Q v

/-- A vehicle that is on a lane segment. -/
def OnLane (v : VehItem F L) : Prop := v.curLane.isSome

/-- **The invariant**: every vehicle is on a lane segment, and on the roads every lane change has
its record. -/
structure LanesOk (s : State F L) : Prop where
  fn : Holds RoadOk s.fn
  fj : Holds OnLane s.fj
  fm : Holds OnLane s.fm

section Holds

variable {Q : VehItem F L → Prop} {t : Table F L}

omit [Double F] [DecidableEq L] in
theorem Holds.insert (h : Holds Q t) (k : ℕ) (hv : Q v) : Holds Q (t.insert k v) := by
  intro k' v' hv'
  obtain ⟨-, rfl⟩ | ⟨-, hv'⟩ := getElem?_insert_eq_some.mp hv'
  · exact hv
  · exact h k' v' hv'

omit [Double F] [DecidableEq L] in
theorem Holds.erase (h : Holds Q t) (k : ℕ) : Holds Q (t.erase k) := by
  intro k' v' hv'
  rw [ExtTreeMap.getElem?_erase] at hv'
  split_ifs at hv'
  exact h k' v' hv'

omit [Double F] [DecidableEq L] in
theorem Holds.map (h : Holds Q t) {f : ℕ → VehItem F L → VehItem F L}
    (hf : ∀ k v, Q v → Q (f k v)) : Holds Q (t.map f) := by
  intro k v' hv'
  rw [ExtTreeMap.getElem?_map] at hv'
  obtain ⟨v, hv, rfl⟩ := Option.map_eq_some_iff.mp hv'
  exact hf k v (h k v hv)

omit [Double F] [DecidableEq L] in
theorem Holds.filter (h : Holds Q t) (f : ℕ → VehItem F L → Bool) : Holds Q (t.filter f) := by
  intro k v hv
  rw [ExtTreeMap.getElem?_filter'] at hv
  exact h k v (filter_eq_some_iff.mp hv).1

omit [Double F] [DecidableEq L] in
theorem Holds.of_mem (h : Holds Q t) {e : ℕ × VehItem F L} (he : e ∈ t.toList) : Q e.2 :=
  h e.1 e.2 (ExtTreeMap.mem_toList_iff_getElem?_eq_some.mp he)

omit [Double F] [DecidableEq L] in
/-- A loop over a table whose steps keep the property at their own record. -/
theorem Holds.visitM {σ : Type} {f : σ → ℕ → VehItem F L → Option (σ × Option (VehItem F L))}
    (hf : ∀ s k v s' v', t[k]? = some v → f s k v = some (s', some v') → Q v') {s s' : σ}
    {t' : Table F L} (h : visitM f s t = some (s', t')) : Holds Q t' := by
  intro k v' hv'
  obtain ⟨v, s₀, s₁, hk, hfv⟩ := exists_step_of_visitM h hv'
  exact hf s₀ k v s₁ v' hk hfv

end Holds

/-! ## The stages of a frame -/

variable {c : VehItem F L × VehItem F L × Option L} {veh : VehItem F L}

theorem updateCall_roadOk {fn : Table F L} (hfn : Holds RoadOk fn)
    (h : updateCall P fn veh = some c) : RoadOk c.1 := by
  unfold updateCall at h
  cases hst : fn[veh.vehItem.id]? with
  | none => simp only [hst] at h; cases h
  | some st =>
      have hroad := hfn _ _ hst
      simp only [hst] at h
      obtain ⟨-, h⟩ | ⟨-, h⟩ := ite_eq_iff.mp h
      · cases h
      split at h
      · cases h
        exact ⟨hroad.lane, hroad.change⟩
      · obtain ⟨-, h⟩ | ⟨-, h⟩ := ite_eq_iff.mp h
        · cases h
        · cases h
          exact ⟨hroad.lane, hroad.change⟩

/-- **`normal_planning`** keeps every vehicle on a lane segment. -/
theorem normalPlanning_roadOk {fn fn' : Table F L} (hfn : Holds RoadOk fn)
    (h : normalPlanning P fn info veh = some fn') : Holds RoadOk fn' := by
  have hupdate : ∀ (st veh' : VehItem F L) (ls : Option L), RoadOk st →
      (updateStatus P st veh' ls).map (fn.insert veh.vehItem.id ·) = some fn' →
      Holds RoadOk fn' := by
    intro st veh' ls hst h
    obtain ⟨w, hw, hroad⟩ := updateStatus_ok (P := P) veh' ls hst
    rw [hw] at h
    cases h
    exact hfn.insert _ hroad
  unfold normalPlanning at h
  cases hst : fn[veh.vehItem.id]? with
  | none =>
      simp only [hst] at h
      split at h
      · cases h
        exact hfn
      · obtain ⟨-, h⟩ | ⟨-, h⟩ := ite_eq_iff.mp h
        · cases h
          exact hfn
        · cases h
          exact hfn.insert _ (.of_zero rfl rfl)
  | some st =>
      have hroad := hfn _ _ hst
      have hused : RoadOk { st with bused := true } := ⟨hroad.lane, hroad.change⟩
      simp only [hst] at h
      obtain ⟨-, h⟩ | ⟨-, h⟩ := ite_eq_iff.mp h
      · cases h
        exact hfn.insert _ ⟨hroad.lane, hroad.change⟩
      split at h
      · exact hupdate _ _ _ hused h
      obtain ⟨-, h⟩ | ⟨-, h⟩ := ite_eq_iff.mp h
      · obtain ⟨-, h⟩ | ⟨-, h⟩ := ite_eq_iff.mp h
        · cases h
          exact hfn.insert _ (.of_zero rfl rfl)
        · cases h
          exact hfn.insert _ ⟨hroad.lane, hroad.change⟩
      · exact hupdate _ _ _ hused h

variable {s s' : State F L}

omit [DecidableEq L] in
theorem prepare_lanesOk (hs : LanesOk s) (h : prepare s frame = some s') : LanesOk s' := by
  obtain ⟨fj, hfj, rfl⟩ := Option.map_eq_some_iff.mp h
  refine ⟨hs.fn.map fun _ v hv => ⟨hv.lane, hv.change⟩, fun k v' hv' => ?_, hs.fm⟩
  obtain ⟨a, ha⟩ := junctionIdmPlanning_accelerated hfj k
  rw [hv'] at ha
  obtain ⟨v, hv, rfl⟩ := Option.map_eq_some_iff.mp ha.symm
  exact (hs.fj.map fun _ _ hv => hv : Holds OnLane (resetStatus s frame.lights).fj) k v hv

/-- The call of `junction_process` for a target of the frame leads on. -/
def ObservedAhead (P : Planner F L) (frame : Frame F L) (s : State F L) (tg : Target F) : Prop :=
  targetTypeCar ≤ tg.cls → ∀ v, s.fj[tg.id]? = some v → ∀ c,
    statusCall P s.jinfo s.lights (observed v (setTarget P frame.garbage tg frame.pkgtime))
      (observedTime frame.pkgtime v.timestamp) true = some c → Leads P c.1 c.2

theorem observe_lanesOk {tg : Target F} (hs : LanesOk s) (hlead : ObservedAhead P frame s tg)
    (h : observe P frame s tg = some (s', calls)) : LanesOk s' := by
  unfold observe at h
  split_ifs at h with hcls hfj
  · cases h
    exact hs
  · extract_lets vitem at h
    split at h
    · cases h
    · next hplan =>
        cases h
        obtain ⟨v, v', hv, hproc, rfl, -⟩ := junctionPlanningObserved_eq_some hplan
        have hlane : (observed v vitem).curLane.isSome := hs.fj tg.id v hv
        have hcall := hlead (Int.not_lt.mp hcls) v hv
        exact ⟨hs.fn, hs.fj.insert _ (junctionProcess_curLane hlane hcall hproc), hs.fm⟩
  · extract_lets vitem at h
    split at h
    · next v hv =>
        cases h
        have hlane : OnLane v := hs.fm tg.id v hv
        exact ⟨hs.fn, hs.fj, hs.fm.insert _ hlane⟩
    · obtain ⟨fn, hfn, heq⟩ := Option.map_eq_some_iff.mp h
      cases heq
      exact ⟨normalPlanning_roadOk hs.fn hfn, hs.fj, hs.fm⟩

variable {calls : List Call}

theorem observeAll_lanesOk {tgs : List (Target F)} (hs : LanesOk s)
    (hlead : ∀ pre tg post s₂ calls, tgs = pre ++ tg :: post →
      observeAll P frame s pre = some (s₂, calls) → ObservedAhead P frame s₂ tg)
    (h : observeAll P frame s tgs = some (s', calls)) : LanesOk s' := by
  induction tgs generalizing s calls with
  | nil =>
      cases h
      exact hs
  | cons tg tgs ih =>
      obtain ⟨s₁, calls₁, calls₂, hobs, hrest, rfl⟩ := observeAll_cons_eq_some h
      refine ih (observe_lanesOk hs (hlead [] tg tgs s [] rfl rfl) hobs) ?_ hrest
      rintro pre tg' post s₃ calls₃ rfl hpre
      refine hlead (tg :: pre) tg' post s₃ (calls₁ ++ calls₃) rfl ?_
      unfold observeAll
      simp only [hobs, hpre, map_some]

theorem junctionPlanning_lanes {fj fj' : Table F L} (hfj : Holds OnLane fj)
    (hlead : ∀ (k : ℕ) v, fj[k]? = some v → v.bused = false → ∀ c,
      statusCall P info lights (unobserved v dtime) dtime false = some c → Leads P c.1 c.2)
    (h : junctionPlanning P fj info lights o dtime = some (r, fj')) : Holds OnLane fj' := by
  refine Holds.visitM (fun s k v s' v' hv hstep => ?_) h
  split_ifs at hstep with hbused
  · cases hstep
    exact hfj k v hv
  · extract_lets at hstep
    split at hstep
    · cases hstep
    · next hproc =>
        cases hstep
        have hlane : (unobserved v dtime).curLane.isSome := hfj k v hv
        have hcall := hlead k v hv (Bool.eq_false_of_not_eq_true hbused)
        exact junctionProcess_curLane hlane hcall hproc

omit [DecidableEq L] in
theorem missingStep_ok (dtime : ℕ) (hv : OnLane v) :
    ∃ r, missingStep P v dtime = some r ∧ ∀ v', r = some v' → OnLane v' := by
  obtain ⟨cur, hcur⟩ := isSome_iff_exists.mp hv
  unfold missingStep
  refine exists_ite (fun _ => ⟨none, rfl, by simp⟩) fun _ => ?_
  extract_lets w len
  have hw : w.curLane = some cur := by grind
  simp only [hw]
  refine exists_ite (fun _ => ⟨none, rfl, by simp⟩) fun _ => ?_
  split
  · exact ⟨none, rfl, by simp⟩
  · refine exists_ite (fun _ => ⟨none, rfl, by simp⟩) fun _ => ⟨_, rfl, fun v' hv' => ?_⟩
    cases hv'
    rfl

omit [DecidableEq L] in
theorem missingPlanning_lanes {fm fm' : Table F L} (hfm : Holds OnLane fm)
    (h : missingPlanning P fm dtime = some fm') : Holds OnLane fm' := by
  obtain ⟨⟨u, t⟩, hvisit, rfl⟩ := Option.map_eq_some_iff.mp h
  refine Holds.visitM (fun s k v s' v' hv hstep => ?_) hvisit
  obtain ⟨r, hr, heq⟩ := Option.map_eq_some_iff.mp hstep
  cases heq
  obtain ⟨r', hr', hlane⟩ := missingStep_ok (P := P) dtime (hfm k v hv)
  rw [hr] at hr'
  cases hr'
  exact hlane v' rfl

theorem checkSetStatusResult_lanesOk (hs : LanesOk s) : LanesOk (checkSetStatusResult P s) := by
  have hdrop : LanesOk { s with fm := dropMissing s.fm } := ⟨hs.fn, hs.fj, hs.fm.filter _⟩
  have hmissing : LanesOk (junctionToMissing { s with fm := dropMissing s.fm }) := by
    refine foldl_toList_invariant (Q := fun _ e => OnLane e.2) ?_ (fun _ _ _ _ h => h) _ hdrop
      fun e he => hs.fj.of_mem he
    intro s e hs he
    split_ifs
    · exact hs
    · exact ⟨hs.fn, hs.fj.erase _, hs.fm.insert _ he⟩
  refine foldl_toList_invariant (Q := fun _ e => RoadOk e.2) ?_ (fun _ _ _ _ h => h) _ hmissing
    fun e he => hmissing.fn.of_mem he
  intro s e hs he
  split_ifs
  · exact ⟨hs.fn.erase _, hs.fj.insert _ he.lane, hs.fm⟩
  · exact hs
  · exact ⟨hs.fn.erase _, hs.fj, hs.fm⟩

omit [DecidableEq L] in
theorem setTargets_lanesOk (hs : LanesOk s) : LanesOk (setTargets P s).1 := by
  have hlane : ∀ t : Table F L, Holds OnLane t → Holds OnLane (writeBack P t) := by
    intro t ht
    refine ht.map fun k v hv => ?_
    split_ifs <;> exact hv
  refine ⟨hs.fn.map fun k v hv => ?_, hlane _ hs.fj, hlane _ hs.fm⟩
  split_ifs
  · exact hv
  · exact ⟨hv.lane, hv.change⟩

/-! ## A frame returns if its calls do -/

/-- The visits of a table before one of its entries, in a loop that returned. -/
theorem junctionPlanning_returns {fj fj' : Table F L}
    (h : junctionPlanning P fj info lights o dtime = some (r, fj')) {e : ℕ × VehItem F L}
    (he : e ∈ fj.toList) (hbused : e.2.bused = false) :
    ∃ o, (junctionProcess P info lights o (unobserved e.2 dtime) dtime false).isSome := by
  obtain ⟨s₀, s₁, r, hstep, -⟩ :=
    (visitM_getElem? h e.1).2 e.2 (ExtTreeMap.mem_toList_iff_getElem?_eq_some.mp he)
  rw [if_neg (by rw [hbused]; decide)] at hstep
  extract_lets at hstep
  split at hstep
  · cases hstep
  · next hproc => exact ⟨s₀.1, Option.isSome_iff_exists.mpr ⟨_, hproc⟩⟩

/-- The state in which the targets of the frame have been looked at. -/
theorem observed_lanesOk {s₁ s₂ : State F L} {pre post : List (Target F)} (hs : LanesOk s)
    (hroad : RoadAhead P s frame) (hprep : prepare s frame = some s₁)
    (htargets : frame.targets = pre ++ post) (hobs : observeAll P frame s₁ pre = some (s₂, calls)) :
    LanesOk s₂ := by
  refine observeAll_lanesOk (prepare_lanesOk hs hprep) ?_ hobs
  rintro pre' tg post' s₃ calls₃ rfl hpre hcls v hv c hc
  rw [append_assoc] at htargets
  exact hroad _ _ _ (.observed hprep htargets hpre hcls hv hc)

/-- **No call of a frame** comes to a null pointer. -/
theorem made_defined (hs : LanesOk s) (hroad : RoadAhead P s frame) {call : Deref F L}
    (h : Made P s frame call) : call.Pointers ∧ call.Returns P s.jinfo := by
  have hstatus : ∀ {v : VehItem F L} {info lights dtime real c}, OnLane v →
      statusCall P info lights v dtime real = some c → Made P s frame (.status c.1 c.2 dtime) →
      (Deref.status c.1 c.2 dtime).Pointers ∧ (Deref.status c.1 c.2 dtime).Returns P s.jinfo := by
    intro v info lights dtime real c hv hc hmade
    have hlane := statusCall_curLane hc hv
    obtain ⟨w, hw, -⟩ := statusProcess_ok (P := P) s.jinfo (ofInt dtime) hlane
      (hroad _ _ _ hmade)
    exact ⟨hlane, Option.isSome_iff_exists.mpr ⟨w, hw⟩⟩
  cases h with
  | @observed s₁ s₂ pre tg post calls v c hprep htargets hobs hcls hv hc =>
      have h₂ := observed_lanesOk hs hroad hprep htargets hobs
      have hlane : OnLane (observed v (setTarget P frame.garbage tg frame.pkgtime)) :=
        h₂.fj tg.id v hv
      exact hstatus hlane hc (.observed hprep htargets hobs hcls hv hc)
  | normal hprep htargets hobs hcls hfj hfm hc =>
      have hv := updateCall_roadOk (observed_lanesOk hs hroad hprep htargets hobs).fn hc
      obtain ⟨w, hw, -⟩ := updateStatus_ok (P := P) _ _ hv
      refine ⟨⟨hv.lane, fun hst => ?_⟩, Option.isSome_iff_exists.mpr ⟨w, hw⟩⟩
      obtain ⟨change, hchange, hok⟩ := hv.change hst
      exact ⟨change, hchange, hok.2⟩
  | @unobserved s₁ s₂ calls pre e post c hprep hobs hsplit hbefore hbused hc =>
      have h₂ := observed_lanesOk hs hroad hprep (append_nil _).symm hobs
      have hlane : OnLane (unobserved e.2 (getProcessTime s frame.pkgtime)) :=
        h₂.fj.of_mem (hsplit ▸ mem_append_right _ mem_cons_self)
      exact hstatus hlane hc (.unobserved hprep hobs hsplit hbefore hbused hc)
  | missing hprep hobs hplan hsplit hbefore hbad =>
      have h₂ := observed_lanesOk hs hroad hprep (append_nil _).symm hobs
      have hv := h₂.fm.of_mem (hsplit ▸ mem_append_right _ mem_cons_self)
      obtain ⟨r, hr, -⟩ := missingStep_ok (P := P) (getProcessTime s frame.pkgtime) hv
      exact ⟨hv, Option.isSome_iff_exists.mpr ⟨r, hr⟩⟩

/-- **A frame** keeps the invariant. -/
theorem improveFusionTargetToJunction_lanesOk {out : Output F} (hs : LanesOk s)
    (hroad : RoadAhead P s frame) (h : improveFusionTargetToJunction P s frame = some (s', out)) :
    LanesOk s' := by
  obtain ⟨s₁, s₂, calls, owners, calls', fj, fm, hprep, hobs, hfj, hfm, rfl, -⟩ :=
    improveFusionTargetToJunction_eq_some h
  have h₂ : LanesOk s₂ := observed_lanesOk hs hroad hprep (append_nil _).symm hobs
  have hfj' : Holds OnLane fj := by
    refine junctionPlanning_lanes h₂.fj (fun k v hv hbused c hc => ?_) hfj
    obtain ⟨pre, post, hsplit⟩ :=
      append_of_mem (ExtTreeMap.mem_toList_iff_getElem?_eq_some.mpr hv)
    refine hroad _ _ _ (.unobserved hprep hobs hsplit (fun e he => ?_) hbused hc)
    refine junctionPlanning_returns hfj ?_
    rw [hsplit]
    exact mem_append_left _ he
  exact setTargets_lanesOk (checkSetStatusResult_lanesOk
    ⟨h₂.fn, hfj', missingPlanning_lanes h₂.fm hfm⟩)

omit [Double F] [DecidableEq L] in
theorem State.init_lanesOk (jinfo : Option (JuncionInfo F L)) : LanesOk (State.init F L jinfo) := by
  constructor <;> simp [State.init, Holds]

/-- **Null pointers**: as long as every vehicle that `junction_process` moves has road ahead, no
frame dereferences a current lane segment or a lane change that is not there. -/
theorem lanes_defined (P : Planner F L) (jinfo : Option (JuncionInfo F L))
    (frames : List (Frame F L))
    (h : Guarded (improveFusionTargetToJunction P) (RoadAhead P) (State.init F L jinfo)
      frames) : LanesDefined P (State.init F L jinfo) frames := by
  rintro pre frame post rfl s outs hrun call hmade
  have hs : LanesOk s := guarded_invariant
    (fun s frame s' out hs hstep hroad => improveFusionTargetToJunction_lanesOk hs hroad hstep)
    (State.init_lanesOk jinfo) h.append_left hrun
  exact made_defined hs (h.append_right hrun).1 hmade

theorem lanes_defined_crossing :
    LanesDefined crossing (State.init ℚ ℕ (some crossingJunction)) crossingFrames :=
  lanes_defined crossing (some crossingJunction) crossingFrames
    (.of_forall (fun _ _ _ _ _ _ _ _ => rfl) _ _)

/-! ### A road that ends in the junction -/

/-- The crossing without its lane 2. -/
def deadEnd : Planner ℚ ℕ :=
  { crossing with
    getAdcAndPoint := fun lane len pt nextpt hdg w =>
      let r := crossing.getAdcAndPoint lane len pt nextpt hdg w
      if r.lane = some 2 then { r with lane := none } else r }

/-- Vehicles are counted on lane 0 and on the road of lane 2. -/
def countedJunction : JuncionInfo ℚ ℕ := { crossingJunction with countInfo := some ⟨[0], [2]⟩ }

/-- The vehicle is counted on a lane segment that `get_adc_and_point` did not find. -/
theorem dead_end_dereferences_null :
    ¬ LanesDefined deadEnd (State.init ℚ ℕ (some countedJunction)) crossingFrames := by
  intro h
  let frame := crossingFrame 3000 (1198 / 10)
  have hrun : (run (improveFusionTargetToJunction deadEnd)
      (State.init ℚ ℕ (some countedJunction))
      [crossingFrame 1000 (998 / 10), crossingFrame 2000 (1098 / 10)]).any (fun p =>
        (prepare p.1 frame).any fun s => (s.fj[7]?).any fun v =>
          (statusCall deadEnd s.jinfo s.lights
            (observed v
              (setTarget deadEnd frame.garbage ⟨7, targetTypeCar, 1198 / 10, 0, 90, 36⟩ 3000))
            (observedTime 3000 v.timestamp) true).any fun c =>
              (statusProcess deadEnd c.1 p.1.jinfo c.2
                (ofInt (observedTime 3000 v.timestamp))).isNone) = true := by
    decide +kernel
  obtain ⟨p, hp, hrun⟩ := exists_of_any hrun
  obtain ⟨s, hprep, hrun⟩ := exists_of_any hrun
  obtain ⟨v, hv, hrun⟩ := exists_of_any hrun
  obtain ⟨c, hc, hnone⟩ := exists_of_any hrun
  have hobs : observeAll deadEnd frame s [] = some (s, []) := rfl
  have hmade : Made deadEnd p.1 frame (.status c.1 c.2 (observedTime 3000 v.timestamp)) :=
    .observed hprep (nil_append _).symm hobs (Int.le_refl _) hv hc
  have hreturns := (h [crossingFrame 1000 (998 / 10), crossingFrame 2000 (1098 / 10)] frame [] rfl
    p.1 p.2 hp _ hmade).2
  rw [Deref.Returns, isSome_iff_ne_none] at hreturns
  exact hreturns (isNone_iff_eq_none.mp hnone)

end V2I.Snapshot
