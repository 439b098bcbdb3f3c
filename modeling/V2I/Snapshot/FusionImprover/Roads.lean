import V2I.Snapshot.Vehicle

/-!
# V2I.Snapshot.FusionImprover.Roads

The pointers of a vehicle on a road. `normal_planning` and what it calls dereference the
current lane segment and the record of a lane change; a vehicle keeps the lane segment it has
when the map knows no next one, and a lane change keeps its record until it is over.
-/

namespace V2I.Snapshot

open Option

variable {F L : Type} [Double F] [DecidableEq L] {P : Planner F L}

/-- The second half of a lane change has not begun, and when there will be one its destination
is known. -/
def ChangeOk (info : LaneChangeInfo F L) : Prop :=
  info.step2Time = 0 ∧ (info.step2Totaltime ≠ 0 → info.dstLane.isSome)

/-- A vehicle that changes lanes. -/
def Changing (v : VehItem F L) : Prop :=
  v.curLane.isSome ∧ ∃ info, v.cinfo = some info ∧ ChangeOk info

/-- A vehicle on a road. -/
structure RoadOk (v : VehItem F L) : Prop where
  lane : v.curLane.isSome
  change : v.status = 1 → ∃ info, v.cinfo = some info ∧ ChangeOk info

variable {v : VehItem F L}

omit [Double F] [DecidableEq L] in
theorem Changing.roadOk (h : Changing v) : RoadOk v := ⟨h.1, fun _ => h.2⟩

omit [Double F] [DecidableEq L] in
theorem RoadOk.changing (h : RoadOk v) (hst : v.status = 1) : Changing v :=
  ⟨h.lane, h.change hst⟩

omit [Double F] [DecidableEq L] in
/-- A vehicle that does not change lanes. -/
theorem RoadOk.of_zero (hlane : v.curLane.isSome) (hst : v.status = 0) : RoadOk v :=
  ⟨hlane, fun h => by rw [hst] at h; cases h⟩

variable {vs : VehItem F L} (veh : VehItem F L)

omit [DecidableEq L] in
theorem normalProcess_ok (bused : Bool) (h : RoadOk vs) :
    ∃ r, normalProcess P vs veh bused = some r ∧ RoadOk r.1 := by
  obtain ⟨cur, hcur⟩ := isSome_iff_exists.mp h.lane
  unfold normalProcess
  simp only [hcur]
  split
  · exact ⟨_, rfl, rfl, h.change⟩
  · exact ⟨_, rfl, .of_zero rfl rfl⟩

variable {info : LaneChangeInfo F L}

omit [DecidableEq L] in
theorem driftStep_ok {veh : VehItem F L} {len : F} (hlane : vs.curLane.isSome)
    (hinfo : ChangeOk info) :
    ∃ vs', driftStep P vs veh info len = some vs' ∧ RoadOk vs' ∧
      (info.step1Time < info.step1Totaltime → Changing vs') := by
  obtain ⟨cur, hcur⟩ := isSome_iff_exists.mp hlane
  unfold driftStep
  simp only [hcur]
  split
  · exact ⟨_, rfl, ⟨rfl, fun _ => ⟨info, rfl, hinfo⟩⟩, fun _ => ⟨rfl, info, rfl, hinfo⟩⟩
  · split
    · next hend => exact ⟨_, rfl, .of_zero rfl rfl, fun hlt => absurd hlt (Int.not_lt.mpr hend)⟩
    · exact ⟨_, rfl, ⟨rfl, fun _ => ⟨info, rfl, hinfo⟩⟩, fun _ => ⟨rfl, info, rfl, hinfo⟩⟩

omit [DecidableEq L] in
theorem crossStep_ok {veh : VehItem F L} {len : F} (hdst : info.dstLane.isSome) :
    ∃ vs', crossStep P vs veh info len = some vs' ∧ Changing vs' := by
  obtain ⟨dst, hdst⟩ := isSome_iff_exists.mp hdst
  unfold crossStep
  simp only [hdst]
  exact ⟨_, rfl, rfl, _, rfl, rfl, fun h => absurd rfl h⟩

omit [DecidableEq L] in
/-- A vehicle that changes lanes stays well formed, and goes on changing while the second half is
ahead. -/
theorem changeProcess_ok (hlane : vs.curLane.isSome) (hcinfo : vs.cinfo = some info)
    (hinfo : ChangeOk info) :
    ∃ vs', changeProcess P vs veh = some vs' ∧ RoadOk vs' ∧
      (info.step2Totaltime ≠ 0 → Changing vs') := by
  unfold changeProcess
  split
  · exact ⟨vs, rfl, ⟨hlane, fun _ => ⟨info, hcinfo, hinfo⟩⟩, fun _ => ⟨hlane, info, hcinfo, hinfo⟩⟩
  · extract_lets dTm dTm' diffCos vs' len
    have hcinfo' : vs'.cinfo = some info := hcinfo
    simp only [hcinfo']
    let info' : LaneChangeInfo F L :=
      { info with step1Time := addTime info.step1Time (len * Double.ofRat 1000 / info.startSpeed) }
    have hinfo' : ChangeOk info' := hinfo
    split
    · next hdrift =>
        obtain ⟨w, heq, hroad, hgo⟩ : ∃ w, driftStep P vs' veh info' len = some w ∧ RoadOk w ∧ _ :=
          driftStep_ok hlane hinfo'
        exact ⟨w, heq, hroad, fun htwo => hgo (hdrift.resolve_right fun h => htwo h.2)⟩
    · next hcross =>
        rw [not_or, not_and] at hcross
        obtain ⟨w, heq, hw⟩ : ∃ w, crossStep P vs' veh info' len = some w ∧ Changing w :=
          crossStep_ok (hinfo'.2 (hcross.2 hinfo'.1))
        exact ⟨w, heq, hw.roadOk, fun _ => hw⟩

variable (ls : L)

omit [DecidableEq L] in
theorem refreshMidPoint_ok (h : Changing vs) :
    ∃ vs', refreshMidPoint P vs veh ls = some vs' ∧ Changing vs' := by
  obtain ⟨hlane, info, hcinfo, hinfo⟩ := h
  obtain ⟨cur, hcur⟩ := isSome_iff_exists.mp hlane
  unfold refreshMidPoint
  simp only [hcinfo, hcur]
  split
  · exact ⟨vs, rfl, hlane, info, hcinfo, hinfo⟩
  · exact ⟨_, rfl, rfl, _, rfl, hinfo.1, fun _ => rfl⟩

omit [DecidableEq L] in
theorem map_changeProcess_ok (n : ℤ) (h : Changing vs) :
    ∃ r, (changeProcess P vs veh).map (·, n) = some r ∧ RoadOk r.1 ∧ r.2 = n := by
  obtain ⟨hlane, info, hcinfo, hinfo⟩ := h
  obtain ⟨vs', heq, hroad, -⟩ := changeProcess_ok (P := P) veh hlane hcinfo hinfo
  exact ⟨(vs', n), by rw [heq]; rfl, hroad, rfl⟩

omit [DecidableEq L] in
theorem map_refreshMidPoint_ok (h : Changing vs) :
    ∃ r, (refreshMidPoint P vs veh ls).map (·, (0 : ℤ)) = some r ∧ Changing r.1 := by
  obtain ⟨vs', heq, hchanging⟩ := refreshMidPoint_ok (P := P) veh ls h
  exact ⟨(vs', 0), by rw [heq]; rfl, hchanging⟩

/-- A plan made anew is one of a lane change under way. -/
theorem replanChange_ok (hlane : vs.curLane.isSome) (hcinfo : vs.cinfo = some info)
    (hinfo : ChangeOk info) : ∃ r, replanChange P vs veh ls info = some r ∧ Changing r.1 := by
  unfold replanChange
  extract_lets
  split
  · exact ⟨_, rfl, hlane, info, hcinfo, hinfo⟩
  · split_ifs with hone
    · exact map_refreshMidPoint_ok veh ls ⟨hlane, _, rfl, rfl, fun _ => rfl⟩
    · exact ⟨_, rfl, rfl, _, rfl, rfl, fun h => absurd rfl h⟩
    · exact map_refreshMidPoint_ok veh ls ⟨hlane, _, rfl, rfl, fun _ => rfl⟩
    · exact ⟨_, rfl, hlane, _, rfl, rfl, fun h => absurd rfl h⟩
    · -- `update_status` runs `change_process` once more behind this one
      obtain ⟨vs', heq, -, hgo⟩ := changeProcess_ok (P := P) veh hlane hcinfo hinfo
      refine ⟨(vs', 0), by rw [heq]; rfl, hgo fun htwo => hone ⟨hinfo.1, htwo⟩⟩
    · exact map_refreshMidPoint_ok veh ls ⟨hlane, _, rfl, rfl, fun _ => rfl⟩

theorem changeLaneInfo_ok (h : Changing vs) :
    ∃ r, changeLaneInfo P vs veh ls = some r ∧ RoadOk r.1 ∧ (¬ 0 < r.2 → Changing r.1) := by
  have hstay : ∃ r, (changeProcess P vs veh).map (·, (1 : ℤ)) = some r ∧ RoadOk r.1 ∧
      (¬ 0 < r.2 → Changing r.1) := by
    obtain ⟨r, heq, hroad, hone⟩ := map_changeProcess_ok (P := P) veh 1 h
    exact ⟨r, heq, hroad, fun hle => absurd (hone ▸ zero_lt_one) hle⟩
  obtain ⟨hlane, info, hcinfo, hinfo⟩ := h
  obtain ⟨cur, hcur⟩ := isSome_iff_exists.mp hlane
  unfold changeLaneInfo
  simp only [hcinfo]
  split_ifs
  · exact hstay
  · exact hstay
  · exact hstay
  · exact hstay
  · obtain ⟨r, heq, hr⟩ := replanChange_ok (P := P) veh ls hlane hcinfo hinfo
    simp only [hcur]
    exact ⟨r, heq, hr.roadOk, fun _ => hr⟩

/-- Both branches have a result with a property. -/
theorem exists_ite {α : Type*} {c : Prop} [Decidable c] {a b : Option α} {Q : α → Prop}
    (ha : c → ∃ r, a = some r ∧ Q r) (hb : ¬ c → ∃ r, b = some r ∧ Q r) :
    ∃ r, (if c then a else b) = some r ∧ Q r := by
  split_ifs with hc
  · exact ha hc
  · exact hb hc

theorem initLaneChangeInfo_ok (h : RoadOk vs) :
    ∃ r, initLaneChangeInfo P vs veh ls = some r ∧ RoadOk r.1 ∧ (r.2 = 0 → Changing r.1) := by
  obtain ⟨cur, hcur⟩ := isSome_iff_exists.mp h.lane
  unfold initLaneChangeInfo
  extract_lets stay
  have hstay : ∀ b, ∃ r, stay b = some r ∧ RoadOk r.1 ∧ (r.2 = 0 → Changing r.1) := by
    intro b
    obtain ⟨r, heq, hr⟩ := normalProcess_ok (P := P) veh b h
    refine ⟨(r.1, 1), ?_, hr, fun hone => absurd hone one_ne_zero⟩
    simp only [stay, heq, map_some]
  refine exists_ite (fun _ => ⟨_, rfl, h, fun hneg => by simp [ENOTAVAIL] at hneg⟩) fun _ => ?_
  iterate 5 refine exists_ite (fun _ => hstay _) fun _ => ?_
  split
  · next hnone => rw [hcur] at hnone; cases hnone
  · extract_lets
    iterate 2 refine exists_ite (fun _ => hstay _) fun _ => ?_
    refine exists_ite (fun _ => hstay _) fun hroute => ?_
    refine exists_ite (fun _ => hstay _) fun _ => ?_
    refine exists_ite (fun _ => ⟨_, rfl, .of_zero rfl rfl, fun hone => absurd hone one_ne_zero⟩)
      fun _ => ?_
    rw [not_or] at hroute
    suffices hgo : ∃ r, (refreshMidPoint P _ veh ls).map (·, (0 : ℤ)) = some r ∧ Changing r.1 by
      obtain ⟨r, heq, hr⟩ := hgo
      exact ⟨r, heq, hr.roadOk, fun _ => hr⟩
    exact map_refreshMidPoint_ok veh ls
      ⟨h.lane, _, rfl, rfl, fun _ => isSome_iff_ne_none.mpr hroute.1⟩

/-- **`update_status`** finds all it dereferences, and leaves the vehicle well formed. -/
theorem updateStatus_ok (ls : Option L) (h : RoadOk vs) :
    ∃ vs', updateStatus P vs veh ls = some vs' ∧ RoadOk vs' := by
  have hchange : ∀ w : VehItem F L, Changing w →
      ∃ vs', changeProcess P w veh = some vs' ∧ RoadOk vs' := by
    rintro w ⟨hlane, info, hcinfo, hinfo⟩
    obtain ⟨vs', heq, hroad, -⟩ := changeProcess_ok (P := P) veh hlane hcinfo hinfo
    exact ⟨vs', heq, hroad⟩
  unfold updateStatus
  cases ls with
  | none =>
      refine exists_ite (fun _ => ?_) fun _ => exists_ite (fun hone => ?_) fun _ => ⟨vs, rfl, h⟩
      · obtain ⟨r, heq, hr⟩ := normalProcess_ok (P := P) veh true h
        exact ⟨r.1, by rw [heq]; rfl, hr⟩
      · exact hchange vs (h.changing hone)
  | some ls =>
      refine exists_ite (fun _ => ?_) fun _ => exists_ite (fun hone => ?_) fun _ => ⟨vs, rfl, h⟩
      · obtain ⟨r, heq, hr, hgo⟩ := initLaneChangeInfo_ok (P := P) veh ls h
        simp only [heq]
        exact exists_ite (fun hzero => hchange r.1 (hgo hzero)) fun _ => ⟨r.1, rfl, hr⟩
      · obtain ⟨info, hcinfo, -⟩ := h.change hone
        have hc := h.changing hone
        simp only [hcinfo]
        refine exists_ite (fun _ => hchange vs hc) fun _ =>
          exists_ite (fun _ => hchange vs hc) fun _ => ?_
        obtain ⟨r, heq, hr, hgo⟩ := changeLaneInfo_ok (P := P) veh ls hc
        simp only [heq]
        exact exists_ite (fun _ => ⟨r.1, rfl, hr⟩) fun hle => hchange r.1 (hgo hle)

end V2I.Snapshot
