import V2I.Snapshot.Vehicle

/-!
# V2I.Snapshot.Vehicle.Replan

Where a new lane change plan starts. While a vehicle changes lanes it is drawn at the
offset `start_pos + v t + step1_acc t² / 2` from its reference lane. A new plan of
`change_lane_info` starts at `t = 0` again, so its `start_pos` has to be that offset, or the
offset from the neighbouring lane where the plan takes this one for its reference.

The branches of the code differ in what they take for the offset: the one that moves on in
the same direction and the one that returns to the own lane read it off the plan, the two
that turn around assume where the old plan began, and the one close to the border has the
sign of the offset wrong.
-/

namespace V2I.Snapshot

open Double.Exact Double

variable {F L : Type} [Double F] [Double.Exact F] [DecidableEq L] (P : Planner F L)

/-! ## The offset from the reference lane -/

/-- The seconds since a plan began. -/
def LaneChangeInfo.elapsed (info : LaneChangeInfo F L) : ℚ := info.step1Time / 1000

/-- How far a vehicle is from its reference lane. -/
def LaneChangeInfo.lateralOffset (info : LaneChangeInfo F L) : ℚ :=
  val info.startPos + val info.v * info.elapsed + val info.step1Acc * info.elapsed ^ 2 / 2

/-- The plan of `vs'` starts where that of `vs` has taken the vehicle. -/
def StartsAtOffset (info : LaneChangeInfo F L) (vs vs' : VehItem F L) : Prop :=
  ∃ info', vs'.cinfo = some info' ∧ val info'.startPos =
    if vs'.curLane = vs.curLane then info.lateralOffset
    else info.lateralOffset - info.right * (val vs.width + val vs'.width) / 2

/-! ## The branches -/

/-- The side of the lane that the vehicle is seen on. -/
def seenSide (vs veh : VehItem F L) : ℤ :=
  sideOf (veh.pt.pt.x - vs.pt.pt.x) (veh.pt.pt.y - vs.pt.pt.y) vs.hdg

/-- The point where the new plan is to end. -/
def destPoint (veh : VehItem F L) (ls : L) (info : LaneChangeInfo F L) : AdcPoint F L :=
  P.getAdcAndPoint ls (info.startSpeed * mstos (ofInt laneChangeMaxTime)) veh.pt
    SegmentPoint.zero veh.hdg (ofRat 0)

/-- The checks at the top of `change_lane_info` that keep the old plan. -/
def KeepsPlan (vs veh : VehItem F L) (ls : L) (info : LaneChangeInfo F L) : Prop :=
  (info.dstLane = none ∧ P.isInLane vs.curLane vs.pt.s veh.pt.pt) ∨
  (info.dstLane ≠ none ∧ P.isInLane info.dstLane veh.pt.s veh.pt.pt) ∨
  Double.lt (ofRat (35 / 10))
    (vehDistance (vs.pt.pt.x - veh.pt.pt.x) (vs.pt.pt.y - veh.pt.pt.y)) ∨
  beyond (angleDiff (normalizeAngle (cog2deg vs.hdg)) (normalizeAngle (cog2deg veh.hdg)))
    quarterPi ∨
  !P.isSameRoad vs.curLane (some ls)

/-- The vehicle has crossed into the lane it changes to. -/
def LaneChangeInfo.SecondPhase (info : LaneChangeInfo F L) : Prop :=
  info.step2Time = 0 ∧ info.step2Totaltime = 0

/-- The vehicle is seen on its own lane again. -/
def Returns (vs veh : VehItem F L) (ls : L) (info : LaneChangeInfo F L) : Prop :=
  ls ∈ info.croute ∨ P.isInLane vs.curLane veh.pt.s veh.pt.pt

/-- A call of `change_lane_info` that writes a new plan. -/
structure WritesPlan (vs veh : VehItem F L) (ls : L) (info : LaneChangeInfo F L) : Prop where
  cinfo : vs.cinfo = some info
  curLane : vs.curLane ≠ none
  checked : ¬ KeepsPlan P vs veh ls info
  dest : (destPoint P veh ls info).lane ≠ none
  replans : info.SecondPhase ∨ Returns P vs veh ls info ∨ seenSide vs veh ≠ info.right

/-- Is the border of the lane more than 30 cm away? -/
def farFromBorder (vs veh : VehItem F L) (info : LaneChangeInfo F L) : Bool :=
  let time : F := mstos (ofInt info.step1Time)
  let moveDist := info.v * time + info.step1Acc * squarePoint time / ofRat 2
  let laneDis := vs.width * ofInt (seenSide vs veh) / ofRat 2 -
    (info.startPos + moveDist)
  Double.lt (ofRat (3 / 10)) (fabs laneDis)

/-- The one offset close to the border that the plan made there starts at: the border
itself, where the neighbouring lane becomes the reference. -/
def borderOffset (vs veh : VehItem F L) (ls : L) (info : LaneChangeInfo F L) : ℚ :=
  if vs.curLane = some ls then info.right * (val vs.width - val (destPoint P veh ls info).w) / 4
  else info.right * val vs.width / 2

/-- When the new plan starts at the offset. Close to the border it is on its way to, the
vehicle has to be at `borderOffset`; where it turns around, the old plan has to have started
on the border of the lane in the second phase, and on its middle in the first. The other
plans always do. -/
structure BeginsRight (vs veh : VehItem F L) (ls : L) (info : LaneChangeInfo F L) : Prop where
  border : info.SecondPhase → seenSide vs veh = info.right → farFromBorder vs veh info = false →
    info.lateralOffset = borderOffset P vs veh ls info
  second : info.SecondPhase → seenSide vs veh ≠ info.right →
    val info.startPos = info.right * val vs.width / 2
  first : ¬ info.SecondPhase → ¬ Returns P vs veh ls info → val info.startPos = 0

/-! ## The plans -/

variable {P} {vs veh : VehItem F L} {ls : L} {info : LaneChangeInfo F L}

omit [Double.Exact F] [DecidableEq L] in
/-- The mid point of a plan moves neither its start nor the reference lane. -/
theorem refreshMidPoint_spec (hinfo : vs.cinfo = some info) (hcur : vs.curLane ≠ none) :
    ∃ vs', refreshMidPoint P vs veh ls = some vs' ∧ vs'.curLane = vs.curLane ∧
      vs'.width = vs.width ∧ ∃ info', vs'.cinfo = some info' ∧ info'.startPos = info.startPos := by
  obtain ⟨cur, hcur⟩ := Option.ne_none_iff_exists'.mp hcur
  simp only [refreshMidPoint, hinfo, hcur]
  split
  · exact ⟨vs, rfl, hcur, rfl, info, hinfo, rfl⟩
  · exact ⟨_, rfl, rfl, rfl, _, rfl, rfl⟩

/-- A plan that keeps the reference lane and starts at `start`. -/
theorem startsAtOffset_refresh {start : F} {info' : LaneChangeInfo F L} {status : ℤ}
    (hstart : info'.startPos = start) (hcur : vs.curLane ≠ none) :
    ∃ vs', (refreshMidPoint P { vs with cinfo := some info', status := status } veh ls).map
        (fun r => (r, (0 : ℤ))) = some (vs', 0) ∧
      (StartsAtOffset info vs vs' ↔ val start = info.lateralOffset) := by
  have hspec := @refreshMidPoint_spec F L _ P { vs with cinfo := some info', status := status }
    veh ls info' rfl hcur
  obtain ⟨vs', href, hlane, -, info'', hinfo'', hstart''⟩ := hspec
  refine ⟨vs', by rw [href]; rfl, ?_⟩
  simp [StartsAtOffset, hinfo'', hstart'', hstart, hlane]

omit [Double.Exact F] in
theorem changeLaneInfo_eq (h : WritesPlan P vs veh ls info) :
    changeLaneInfo P vs veh ls = replanChange P vs veh ls info := by
  obtain ⟨cur, hcur⟩ := Option.ne_none_iff_exists'.mp h.curLane
  have hchecked := h.checked
  rw [KeepsPlan, not_or, not_or, not_or, not_or] at hchecked
  obtain ⟨hown, hdst, hfar, hangle, hroad⟩ := hchecked
  simp only [changeLaneInfo, h.cinfo]
  rw [if_neg (by tauto), if_neg hfar, if_neg hangle, if_neg hroad, hcur]

omit [DecidableEq L] in
/-- The way across the lane since the old plan began, as the code computes it. -/
theorem val_moveDist (info : LaneChangeInfo F L) :
    val (info.v * mstos (ofInt info.step1Time) +
        info.step1Acc * squarePoint (mstos (ofInt info.step1Time)) / ofRat 2) =
      info.lateralOffset - val info.startPos := by
  simp only [val_add, val_mul, val_div, val_ofRat, val_ofInt, mstos, squarePoint,
    LaneChangeInfo.lateralOffset, LaneChangeInfo.elapsed]
  ring

/-- After the lane was crossed: moving on to the same side, or turning around. -/
theorem replanChange_second (hphase : info.SecondPhase) (hcur : vs.curLane ≠ none)
    (hdest : (destPoint P veh ls info).lane ≠ none) :
    ∃ vs', replanChange P vs veh ls info = some (vs', 0) ∧
      (StartsAtOffset info vs vs' ↔ BeginsRight P vs veh ls info) := by
  obtain ⟨nlangseg, hlane⟩ := Option.ne_none_iff_exists'.mp hdest
  simp only [destPoint] at hlane
  have hphase' : info.step2Time = 0 ∧ info.step2Totaltime = 0 := hphase
  simp only [replanChange, hlane, if_pos hphase']
  by_cases hside : seenSide vs veh = info.right
  · have hside' := hside
    rw [seenSide] at hside'
    rw [if_pos hside']
    by_cases hfar : farFromBorder vs veh info = true
    · have hfar' := hfar
      simp only [farFromBorder, seenSide] at hfar'
      rw [if_pos hfar']
      refine (startsAtOffset_refresh rfl hcur).imp fun vs' h => ⟨h.1, h.2.trans (iff_of_true ?_ ?_)⟩
      · rw [planChange, val_add, val_moveDist]
        ring
      · exact ⟨fun _ _ h => absurd hfar (by simp [h]), fun _ h => absurd hside h,
          fun h => absurd hphase h⟩
    · have hfar' := hfar
      simp only [farFromBorder, seenSide] at hfar'
      rw [if_neg hfar']
      refine ⟨_, rfl, ?_⟩
      -- the code takes the way to the border for the offset
      have hiff : BeginsRight P vs veh ls info ↔
          info.lateralOffset = borderOffset P vs veh ls info :=
        ⟨fun h => h.border hphase hside (by simpa using hfar),
          fun h => ⟨fun _ _ _ => h, fun _ h => absurd hside h, fun h => absurd hphase h⟩⟩
      rw [hiff, StartsAtOffset, borderOffset, hside']
      have hmove := val_moveDist info
      simp only [Option.some.injEq, exists_eq_left', destPoint, val_add, val_sub, val_mul,
        val_div, val_ofRat, val_ofInt] at hmove ⊢
      by_cases hsame : vs.curLane = some ls
      · rw [if_pos hsame.symm, if_pos hsame]
        constructor <;> intro h <;> linarith
      · rw [if_neg (Ne.symm hsame), if_neg hsame]
        constructor <;> intro h <;> linarith
  · have hside' := hside
    rw [seenSide] at hside'
    rw [if_neg hside']
    refine (startsAtOffset_refresh rfl hcur).imp fun vs' h => ⟨h.1, h.2.trans ?_⟩
    have hiff : BeginsRight P vs veh ls info ↔ val info.startPos = info.right * val vs.width / 2 :=
      ⟨fun h => h.second hphase hside,
        fun h => ⟨fun _ h => absurd h hside, fun _ _ => h, fun h => absurd hphase h⟩⟩
    rw [hiff, planChange, val_add, val_moveDist]
    simp only [val_div, val_mul, val_ofInt, val_ofRat]
    constructor <;> intro h <;> linarith

/-- Before the lane was crossed: returning to it, or turning around. -/
theorem replanChange_first (hphase : ¬ info.SecondPhase) (hcur : vs.curLane ≠ none)
    (hdest : (destPoint P veh ls info).lane ≠ none)
    (hreplans : Returns P vs veh ls info ∨ seenSide vs veh ≠ info.right) :
    ∃ vs', replanChange P vs veh ls info = some (vs', 0) ∧
      (StartsAtOffset info vs vs' ↔ BeginsRight P vs veh ls info) := by
  obtain ⟨nlangseg, hlane⟩ := Option.ne_none_iff_exists'.mp hdest
  simp only [destPoint] at hlane
  have hphase' : ¬ (info.step2Time = 0 ∧ info.step2Totaltime = 0) := hphase
  simp only [replanChange, hlane, if_neg hphase']
  by_cases hback : Returns P vs veh ls info
  · have hback' := hback
    rw [Returns] at hback'
    rw [if_pos hback']
    refine ⟨_, rfl, iff_of_true ⟨_, rfl, ?_⟩ ?_⟩
    · rw [if_pos rfl, val_add, val_moveDist]
      ring
    · exact ⟨fun h => absurd h hphase, fun h => absurd h hphase, fun _ h => absurd hback h⟩
  · have hside := hreplans.resolve_left hback
    have hback' := hback
    rw [Returns] at hback'
    rw [seenSide] at hside
    rw [if_neg hback', if_neg hside]
    refine (startsAtOffset_refresh rfl hcur).imp fun vs' h => ⟨h.1, h.2.trans ?_⟩
    have hiff : BeginsRight P vs veh ls info ↔ val info.startPos = 0 :=
      ⟨fun h => h.first hphase hback,
        fun h => ⟨fun h => absurd h hphase, fun h => absurd h hphase, fun _ _ => h⟩⟩
    rw [hiff, planChange, val_moveDist]
    constructor <;> intro h <;> linarith

/-- A new plan starts at the offset of the vehicle, exactly when it begins right. -/
theorem startsAtOffset_iff_beginsRight (h : WritesPlan P vs veh ls info) :
    ∃ vs', changeLaneInfo P vs veh ls = some (vs', 0) ∧
      (StartsAtOffset info vs vs' ↔ BeginsRight P vs veh ls info) := by
  rw [changeLaneInfo_eq h]
  by_cases hphase : info.SecondPhase
  · exact replanChange_second hphase h.curLane h.dest
  · exact replanChange_first hphase h.curLane h.dest (h.replans.resolve_left hphase)

/-! ## A plan close to the border -/

/-- A straight road; all its lanes are 3.5 m wide. -/
def straightRoad : Planner ℚ ℕ where
  changeGpsToUtm := id
  changeUtmToGps := id
  findLaneseg pt hdg := ⟨some 0, pt, hdg, ⟨pt, 0⟩⟩
  getAdcAndPoint lane len spt _ hdg _ :=
    ⟨some lane, { spt with s := spt.s + len }, hdg, 7 / 2, [lane]⟩
  isInLane _ _ _ := false
  isSameRoad _ _ := true
  getLane := id
  getRoad _ := 0
  getLength _ := 100
  getJunctionid _ := -1

/-- The second half of a change, 20 cm short of the border on the right. -/
def nearBorder : LaneChangeInfo ℚ ℕ :=
  { dstLane := none, dstW := 0, dstDs := 0, startSpeed := 25 / 3, startPos := 31 / 20, v := 0,
    croute := [0], droute := [], right := 1, step1Acc := 0, step2Acc := 0,
    step1Totaltime := 2000, step2Totaltime := 0, step1Time := 0, step2Time := 0 }

/-- A vehicle on its way east. -/
def eastbound (y : ℚ) (cinfo : Option (LaneChangeInfo ℚ ℕ)) : VehItem ℚ ℕ :=
  { vehItem := ⟨1, 0, 0, 0, 90, 30⟩, pt := ⟨⟨0, y⟩, 10⟩, originPt := ⟨0, y⟩, hdg := 90, speed := 30,
    a := 0, timestamp := 1000, status := 1, bused := true, badItem := false,
    countIncomm := false, countOutgoing := false, curLane := some 0, width := 7 / 2,
    cinfo := cinfo }

theorem writesPlan_nearBorder :
    WritesPlan straightRoad (eastbound 0 (some nearBorder)) (eastbound (-1) none) 1 nearBorder where
  cinfo := rfl
  curLane := nofun
  checked := by
    unfold KeepsPlan
    decide +kernel
  dest := nofun
  replans := .inl ⟨rfl, rfl⟩

theorem startsAtOffset_iff_beginsRight_nearBorder :
    ∃ vs', changeLaneInfo straightRoad (eastbound 0 (some nearBorder)) (eastbound (-1) none) 1 =
        some (vs', 0) ∧
      (StartsAtOffset nearBorder (eastbound 0 (some nearBorder)) vs' ↔
        BeginsRight straightRoad (eastbound 0 (some nearBorder)) (eastbound (-1) none) 1
          nearBorder) :=
  startsAtOffset_iff_beginsRight writesPlan_nearBorder

/-- A vehicle 1.55 m from its lane, on the side of the one it takes for its reference, is
put 1.55 m from that lane and not the 1.95 m that are left. -/
theorem not_startsAtOffset_nearBorder :
    WritesPlan straightRoad (eastbound 0 (some nearBorder)) (eastbound (-1) none) 1 nearBorder ∧
      ∃ vs', changeLaneInfo straightRoad (eastbound 0 (some nearBorder)) (eastbound (-1) none) 1 =
          some (vs', 0) ∧
        ¬ StartsAtOffset nearBorder (eastbound 0 (some nearBorder)) vs' := by
  refine ⟨writesPlan_nearBorder, ?_⟩
  rw [changeLaneInfo_eq writesPlan_nearBorder]
  have hsecond : ∃ vs', replanChange straightRoad (eastbound 0 (some nearBorder))
      (eastbound (-1) none) 1 nearBorder = some (vs', 0) ∧
        (StartsAtOffset nearBorder (eastbound 0 (some nearBorder)) vs' ↔
          BeginsRight straightRoad (eastbound 0 (some nearBorder)) (eastbound (-1) none) 1
            nearBorder) := replanChange_second ⟨rfl, rfl⟩ nofun nofun
  obtain ⟨vs', hplan, hiff⟩ := hsecond
  refine ⟨vs', hplan, fun h => ?_⟩
  have hborder := (hiff.mp h).border ⟨rfl, rfl⟩ (by decide +kernel) (by decide +kernel)
  exact absurd hborder (by unfold LaneChangeInfo.lateralOffset; decide +kernel)

end V2I.Snapshot
