import V2I.Lib.Angle
import V2I.Lib.Double
import V2I.MapCore.Kdtree
import V2I.Zasbsc

/-!
# V2I.Snapshot.Vehicle

The data of the junction planner (`fusion-improver.h`) and the part of
`vehicle-planning.cpp` that follows a vehicle on a normal road: `normal_planning` with
the lane change logic below it.

`F` is the type of `double`s, `L` that of lane segments (`hdmap_laneseg*`, the null
pointer being `none`). What the planner asks the map and the projection is a field of
`Planner`. A method call on a null pointer has no defined result, here `none`. Fields
that the code leaves uninitialised come in with the `garbage` record of a new item.
-/

namespace V2I.Snapshot

open Double

/-- A target of a fusion package. -/
structure Target (F : Type) where
  id : ℕ
  cls : ℤ
  lon : F
  lat : F
  hdg : F
  speed : F

/-- `hdmap_segment_point`. -/
structure SegmentPoint (F : Type) where
  pt : Point F
  s : F

/-- `lane_change_info`. -/
structure LaneChangeInfo (F L : Type) where
  dstLane : Option L
  dstW : F
  dstDs : F
  startSpeed : F
  startPos : F
  v : F
  croute : List L
  droute : List L
  right : ℤ
  step1Acc : F
  step2Acc : F
  step1Totaltime : ℤ
  step2Totaltime : ℤ
  step1Time : ℤ
  step2Time : ℤ

/-- `fusion_veh_item`. The list node of the item is kept by the junction. -/
structure VehItem (F L : Type) where
  vehItem : Target F
  pt : SegmentPoint F
  originPt : Point F
  hdg : F
  speed : F
  a : F
  timestamp : ℕ
  status : ℤ
  bused : Bool
  badItem : Bool
  countIncomm : Bool
  countOutgoing : Bool
  curLane : Option L
  width : F
  cinfo : Option (LaneChangeInfo F L)

/-- What `get_adc_and_point` hands back: the lane segment reached, and the new values of
its reference parameters. -/
structure AdcPoint (F L : Type) where
  lane : Option L
  nextpt : SegmentPoint F
  hdg : F
  w : F
  route : List L

/-- What `find_laneseg` hands back. -/
structure FoundLaneseg (F L : Type) where
  lane : Option L
  src : Point F
  hdg : F
  center : SegmentPoint F

/-- The map and the projection, as the planner uses them. Lanes and roads are only
compared, so a number stands for each. -/
structure Planner (F L : Type) where
  changeGpsToUtm : Point F → Point F
  changeUtmToGps : Point F → Point F
  findLaneseg : Point F → F → FoundLaneseg F L
  getAdcAndPoint : L → F → SegmentPoint F → SegmentPoint F → F → F → AdcPoint F L
  isInLane : Option L → F → Point F → Bool
  isSameRoad : Option L → Option L → Bool
  getLane : L → ℕ
  getRoad : L → ℕ
  getLength : L → F
  getJunctionid : L → ℤ

section Arithmetic

variable {F : Type} [Double F]

/-- `LANE_CHANGE_MAX_TIME` -/
def laneChangeMaxTime : ℤ := 4000

/-- `MSTOS` -/
def mstos (x : F) : F := x / ofRat 1000

/-- `NORMAL_SPEED` -/
def normalSpeed (x : F) : F := x / ofRat (36 / 10)

/-- `TO_KM_SPEED` -/
def toKmSpeed (x : F) : F := x * ofRat (36 / 10)

/-- `COG2DEG` -/
def cog2deg (x : F) : F := (ofRat 90 - x) * Double.pi / ofRat 180

/-- `VEH_DISTANCE` -/
def vehDistance (x y : F) : F := Double.sqrt (x * x + y * y)

/-- `CROSS_MULTI` -/
def crossMulti (x1 y1 x2 y2 : F) : F := x1 * y2 - x2 * y1

/-- `SQUARE_POINT` -/
def squarePoint (x : F) : F := x * x

def normalizeAngle (angle : F) : F :=
  Angle.normalize Double.fmod (Double.lt · (ofRat 0)) Double.pi (ofRat 2 * Double.pi)
    angle

def angleDiff (src dst : F) : F := normalizeAngle (dst - src)

/-- Is an angle beyond `limit` in either direction? -/
def beyond (angle limit : F) : Bool := Double.lt limit angle || Double.lt angle (-limit)

/-- `M_PI_4` and `M_PI_2` -/
def quarterPi : F := Double.pi / ofRat 4
def halfPi : F := Double.pi / ofRat 2

/-- On which side of the heading a displacement points: 1 to the right, -1 otherwise. -/
def sideOf (dx dy hdg : F) : ℤ :=
  let crossM := crossMulti dx dy (Double.cos (cog2deg hdg)) (Double.sin (cog2deg hdg))
  if Double.lt (ofRat (10 / 10 ^ 15)) crossM then 1 else -1

/-- The displacement of a vehicle by `w` across its heading. -/
def acrossHeading (w hdg : F) : Point F :=
  let neg := Double.lt w (ofRat 0)
  let w' := if neg then w * ofRat (-1) else w
  let difHdg : F := if neg then ofRat 90 * ofRat (-1) else ofRat 90
  ⟨w' * Double.cos (cog2deg (hdg + difHdg)), w' * Double.sin (cog2deg (hdg + difHdg))⟩

/-- `std::abs(cos(...))` of the angle between two headings, 1 when it is below 0.3. -/
def headingFactor (hdg hdg' : F) : F :=
  let diffCos := fabs (Double.cos (normalizeAngle (cog2deg hdg - cog2deg hdg')))
  if Double.lt diffCos (ofRat (3 / 10)) then ofRat 1 else diffCos

/-- `std::abs(NORMAL_SPEED(PLANNING_INITIAL_SPEED))` -/
def planningInitialSpeed : F := fabs (normalSpeed (ofRat 30))

/-- `x += y` on an `int` with a `double` on the right. -/
def addTime (x : ℤ) (y : F) : ℤ := Double.toInt (ofInt x + y)

/-- Move a point. -/
def movePt (p : SegmentPoint F) (d : Point F) : SegmentPoint F :=
  { p with pt := ⟨p.pt.x + d.x, p.pt.y + d.y⟩ }

end Arithmetic

/-! ## Following a lane -/

section Planning

variable {F L : Type} [Double F] [DecidableEq L] (P : Planner F L)

/-- The difference of two 64-bit time stamps. -/
def diff64 (a b : ℕ) : ℕ := (a + 2 ^ 64 - b) % 2 ^ 64

/-- A `hdmap_segment_point` as its constructor leaves it. -/
def SegmentPoint.zero : SegmentPoint F := ⟨⟨ofRat 0, ofRat 0⟩, ofRat 0⟩

/-- `normal_process(veh_status, veh, bused)`: move on along the current lane. The second
component is the return value. -/
def normalProcess (vs veh : VehItem F L) (bused : Bool) : Option (VehItem F L × ℤ) :=
  let len := fabs (normalSpeed vs.speed *
    mstos (ofInt (diff64 veh.timestamp vs.timestamp)))
  let len := if bused then len * headingFactor veh.vehItem.hdg vs.hdg else len
  match vs.curLane with
  | none => none
  | some cur =>
      let r := P.getAdcAndPoint cur len vs.pt veh.pt veh.hdg vs.width
      let vs := { vs with timestamp := veh.timestamp, width := r.w }
      match r.lane with
      | none => some (vs, -ENOTFOUND)
      | some nlangseg =>
          let nine : F := ofRat 9
          let speed := if bused then veh.speed else if Double.lt vs.speed nine then nine else vs.speed
          some ({ vs with
            curLane := some nlangseg, hdg := r.hdg, pt := r.nextpt, speed := speed,
            vehItem := veh.vehItem, status := 0 }, 0)

/-- The first half of a lane change, and the second half of one: drift from `start_pos`
across the current lane. -/
def driftStep (vs veh : VehItem F L) (info : LaneChangeInfo F L) (len : F) : Option (VehItem F L) :=
  let vs := { vs with timestamp := veh.timestamp }
  match vs.curLane with
  | none => none
  | some cur =>
      let r := P.getAdcAndPoint cur len vs.pt SegmentPoint.zero vs.hdg vs.width
      match r.lane with
      | none => some { vs with cinfo := some info }
      | some nlangseg =>
          let time : F := mstos (ofInt info.step1Time)
          let w := info.step1Acc * squarePoint time / ofRat 2 + info.v * time
          let w := info.startPos + w
          let vs := { vs with
            hdg := r.hdg, width := r.w, curLane := some nlangseg, speed := veh.speed,
            pt := movePt r.nextpt (acrossHeading w r.hdg) }
          if info.step1Totaltime ≤ info.step1Time then
            some { vs with cinfo := none, status := 0 }
          else some { vs with cinfo := some info }

/-- Half way through a lane change: from now on the destination lane is the current one. The point
`spt` is input and output of `get_adc_and_point`. -/
def crossStep (vs veh : VehItem F L) (info : LaneChangeInfo F L) (len : F) : Option (VehItem F L) :=
  match info.dstLane with
  | none => none
  | some dstLane =>
      let ddt2 : F := ofInt (info.step1Time - info.step1Totaltime)
      let vMax := info.step1Acc * mstos (ofInt info.step1Totaltime)
      let right := info.right * (-1)
      let spt := { vs.pt with s := vs.pt.s + info.dstDs }
      let r := P.getAdcAndPoint dstLane len spt spt vs.hdg vs.width
      let w := info.step2Acc * squarePoint (mstos ddt2) / ofRat 2 + vMax * mstos ddt2
      let startPos := r.w / ofRat 2 * ofInt right
      let w := startPos + w
      some { vs with
        timestamp := veh.timestamp, hdg := r.hdg, width := r.w, curLane := some dstLane,
        pt := movePt r.nextpt (acrossHeading w r.hdg), speed := veh.speed,
        cinfo := some { info with
          v := vMax, right := right, dstDs := ofRat 0, startPos := startPos,
          step1Acc := info.step2Acc, step2Acc := ofRat 0,
          step1Time := if info.step1Time - info.step1Totaltime < 0 then 0
            else info.step1Time - info.step1Totaltime,
          step2Time := 0, step1Totaltime := info.step2Totaltime, step2Totaltime := 0,
          croute := info.droute, droute := [], dstLane := none } }

/-- `change_process(veh_status, veh)`: move on while changing lanes. -/
def changeProcess (vs veh : VehItem F L) : Option (VehItem F L) :=
  if veh.timestamp < vs.timestamp then some vs
  else
    let dTm : F := ofInt (diff64 veh.timestamp vs.timestamp)
    let dTm := if Double.lt (ofRat 1000) dTm || Double.lt dTm (ofRat 0)
      then ofRat 200 else dTm
    let diffCos := headingFactor veh.vehItem.hdg vs.hdg
    let vs := { vs with vehItem := veh.vehItem }
    let len := fabs (normalSpeed vs.speed * diffCos * mstos dTm)
    match vs.cinfo with
    | none => none
    | some info =>
        let dTm := len * ofRat 1000 / info.startSpeed
        let info := { info with step1Time := addTime info.step1Time dTm }
        if info.step1Time < info.step1Totaltime ∨ (info.step2Time = 0 ∧ info.step2Totaltime = 0)
        then driftStep P vs veh info len
        else crossStep P vs veh info len

/-! ## Lane changes -/

/-- `refresh_mid_point(veh_status, veh, ls)`. -/
def refreshMidPoint (vs veh : VehItem F L) (ls : L) : Option (VehItem F L) :=
  match vs.cinfo with
  | none => none
  | some info =>
      let midLen := fabs
        (info.startSpeed * mstos (ofInt (info.step1Totaltime - info.step1Time)))
      let d := P.getAdcAndPoint ls midLen veh.pt SegmentPoint.zero veh.hdg (ofRat 0)
      match d.lane with
      | none => some vs
      | some dmidlane =>
          match vs.curLane with
          | none => none
          | some cur =>
              let m := P.getAdcAndPoint cur midLen vs.pt SegmentPoint.zero vs.hdg (ofRat 0)
              some { vs with cinfo := some { info with
                dstDs := d.nextpt.s - m.nextpt.s, dstLane := some dmidlane } }

/-- The times of the two halves of a lane change are in proportion to `part1` and `part2`. -/
def partTime (part part1 part2 : F) : F :=
  part * ofInt laneChangeMaxTime / (part1 + part2)

/-- The lateral acceleration of a half that takes `t`, for twice the distance covered. -/
def partAcc (len2 t : F) : F :=
  len2 / (mstos t * mstos (ofInt laneChangeMaxTime))

/-- The plan of a change over `currLanew` on this lane and `dstLanew` on the next one. -/
def planChange (info : LaneChangeInfo F L) (currLanew dstLanew : F) (startPos : F)
    (dst : Option L) (destW : F) (route : List L) (right : ℤ) : LaneChangeInfo F L :=
  let t1 := partTime currLanew currLanew dstLanew
  let t2 := partTime dstLanew currLanew dstLanew
  let dstSLen := currLanew + dstLanew
  { info with
    startPos := startPos, dstLane := dst, dstDs := ofRat 0, dstW := destW,
    startSpeed := planningInitialSpeed, droute := route,
    step1Totaltime := Double.toInt t1, step2Totaltime := Double.toInt t2,
    step1Time := 0, step2Time := 0, v := ofRat 0, right := right,
    step1Acc := partAcc (dstSLen * ofRat 2) t1,
    step2Acc := partAcc (dstSLen * ofRat 2 * ofRat (-1)) t2 }

/-- `change_lane_info(veh_status, veh, ls)` behind its checks: plan anew. -/
def replanChange (vs veh : VehItem F L) (ls : L) (info : LaneChangeInfo F L) :
    Option (VehItem F L × ℤ) :=
  let right := sideOf (veh.pt.pt.x - vs.pt.pt.x) (veh.pt.pt.y - vs.pt.pt.y) vs.hdg
  let time : F := mstos (ofInt info.step1Time)
  let moveDist := info.v * time + info.step1Acc * squarePoint time / ofRat 2
  let len := info.startSpeed * mstos (ofInt laneChangeMaxTime)
  let dest := P.getAdcAndPoint ls len veh.pt SegmentPoint.zero veh.hdg (ofRat 0)
  let half : F := ofInt (laneChangeMaxTime / 2)
  match dest.lane with
  | none => some (vs, -ELOGIC)
  | some nlangseg =>
      if info.step2Time = 0 ∧ info.step2Totaltime = 0 then
        if right = info.right then
          let lanePos := info.startPos + moveDist
          let laneDis := vs.width * ofInt right / ofRat 2 - lanePos
          if Double.lt (ofRat (3 / 10)) (fabs laneDis) then
            let info := planChange info laneDis (dest.w * ofInt right / ofRat 2)
              lanePos (some nlangseg) dest.w dest.route right
            (refreshMidPoint P { vs with cinfo := some info, status := 1 } veh ls).map (·, 0)
          else
            let startPos := laneDis + dest.w * ofInt right * ofRat (-1) / ofRat 2
            some ({ vs with
              curLane := some ls, width := dest.w, pt := veh.pt, status := 1,
              cinfo := some { info with
                startPos := startPos, dstLane := none, dstDs := ofRat 0,
                dstW := ofRat 0, startSpeed := planningInitialSpeed, croute := dest.route,
                step1Totaltime := laneChangeMaxTime / 2, step2Totaltime := 0,
                step1Time := 0, step2Time := 0, right := right * (-1),
                v := startPos * ofRat (-1) / mstos half,
                step1Acc := ofRat 0, step2Acc := ofRat 0 } }, 0)
        else
          let currLanew := vs.width * ofInt right - moveDist
          let startPos := vs.width * ofInt info.right / ofRat 2 + moveDist
          let info := planChange info currLanew (dest.w / ofRat 2 * ofInt right)
            startPos (some nlangseg) dest.w dest.route right
          (refreshMidPoint P { vs with cinfo := some info, status := 1 } veh ls).map (·, 0)
      else if ls ∈ info.croute ∨ P.isInLane vs.curLane veh.pt.s veh.pt.pt then
        let startPos := info.startPos + moveDist
        some ({ vs with cinfo := some { info with
          startPos := startPos, v := startPos * ofRat (-1) / mstos half,
          dstDs := ofRat 0, dstW := ofRat 0, step1Totaltime := laneChangeMaxTime / 2,
          step1Time := 0, step1Acc := ofRat 0, step2Totaltime := 0, step2Time := 0,
          step2Acc := ofRat 0, dstLane := none } }, 0)
      else if right = info.right then (changeProcess P vs veh).map (·, 0)
      else
        let currLanew := vs.width * ofInt right / ofRat 2 - moveDist
        let info := planChange info currLanew (dest.w / ofRat 2 * ofInt right)
          moveDist (some nlangseg) dest.w dest.route right
        (refreshMidPoint P { vs with cinfo := some info, status := 1 } veh ls).map (·, 0)

/-- `change_lane_info(veh_status, veh, ls)`. -/
def changeLaneInfo (vs veh : VehItem F L) (ls : L) : Option (VehItem F L × ℤ) :=
  match vs.cinfo with
  | none => none
  | some info =>
      if (info.dstLane = none ∧ P.isInLane vs.curLane vs.pt.s veh.pt.pt) ∨
          (info.dstLane ≠ none ∧ P.isInLane info.dstLane veh.pt.s veh.pt.pt) then
        (changeProcess P vs veh).map (·, 1)
      else if Double.lt (ofRat (35 / 10))
          (vehDistance (vs.pt.pt.x - veh.pt.pt.x) (vs.pt.pt.y - veh.pt.pt.y)) then
        (changeProcess P vs veh).map (·, 1)
      else if beyond (angleDiff (normalizeAngle (cog2deg vs.hdg)) (normalizeAngle (cog2deg veh.hdg)))
          quarterPi then
        (changeProcess P vs veh).map (·, 1)
      else if !P.isSameRoad vs.curLane (some ls) then
        (changeProcess P vs veh).map (·, 1)
      else
        match vs.curLane with
        | none => none
        | some _ => replanChange P vs veh ls info

/-- `init_lane_change_info(veh_status, veh, ls)`. -/
def initLaneChangeInfo (vs veh : VehItem F L) (ls : L) : Option (VehItem F L × ℤ) :=
  let stay (bused : Bool) : Option (VehItem F L × ℤ) :=
    (normalProcess P vs veh bused).map fun r => (r.1, 1)
  if vs.status ≠ 0 then some (vs, -ENOTAVAIL)
  else if vs.curLane = some ls then stay true
  else if beyond (angleDiff (normalizeAngle (cog2deg vs.hdg)) (normalizeAngle (cog2deg veh.hdg)))
      quarterPi then stay false
  else if Double.lt (ofRat (35 / 10))
      (vehDistance (vs.pt.pt.x - veh.pt.pt.x) (vs.pt.pt.y - veh.pt.pt.y)) then stay false
  else if P.isInLane vs.curLane vs.pt.s veh.pt.pt then stay true
  else if !P.isSameRoad vs.curLane (some ls) then stay false
  else
    match vs.curLane with
    | none => none
    | some cur =>
        let dstLen := fabs
          (normalSpeed (ofRat 30) * mstos (ofInt laneChangeMaxTime))
        let c := P.getAdcAndPoint cur dstLen vs.pt SegmentPoint.zero vs.hdg (ofRat 0)
        let n := P.getAdcAndPoint ls dstLen veh.pt SegmentPoint.zero veh.hdg (ofRat 0)
        if c.route.any fun rlane => rlane = ls ∨ rlane ∈ n.route then stay true
        else
          let right := sideOf (veh.pt.pt.x - vs.pt.pt.x) (veh.pt.pt.y - vs.pt.pt.y) vs.hdg
          let midLen := fabs (dstLen / ofRat 2)
          let mc := P.getAdcAndPoint cur midLen vs.pt SegmentPoint.zero vs.hdg (ofRat 0)
          let mn := P.getAdcAndPoint ls midLen veh.pt SegmentPoint.zero veh.hdg (ofRat 0)
          if beyond (angleDiff (normalizeAngle (cog2deg mc.hdg)) (normalizeAngle (cog2deg mn.hdg)))
              halfPi then stay false
          else if n.lane = none ∨ mn.lane = none then stay true
          else if Double.lt n.w (ofRat (1 / 10)) then stay true
          else if Double.lt mc.w (ofRat (1 / 10)) then
            some ({ vs with
              curLane := some ls, hdg := veh.hdg, pt := veh.pt, vehItem := veh.vehItem,
              status := 0, timestamp := veh.timestamp, cinfo := none }, 1)
          else
            let t1 := partTime mc.w mc.w n.w
            let t2 := partTime n.w mc.w n.w
            let dstSLen := (mc.w + n.w) * ofInt right / ofRat 2
            let info : LaneChangeInfo F L :=
              { v := ofRat 0, startPos := ofRat 0, dstLane := n.lane,
                dstDs := mn.nextpt.s - mc.nextpt.s, dstW := n.w, startSpeed := planningInitialSpeed,
                croute := c.route, droute := n.route, step1Totaltime := Double.toInt t1,
                step2Totaltime := Double.toInt t2, step1Time := 0, step2Time := 0, right := right,
                step1Acc := partAcc (dstSLen * ofRat 2) t1,
                step2Acc := partAcc (dstSLen * ofRat 2 * ofRat (-1)) t2 }
            (refreshMidPoint P { vs with cinfo := some info, width := mc.w, status := 1 } veh ls).map
              (·, 0)

/-- `update_status(veh_status, veh, ls)`. -/
def updateStatus (vs veh : VehItem F L) (ls : Option L) : Option (VehItem F L) :=
  match ls with
  | none =>
      if vs.status = 0 then (normalProcess P vs veh true).map Prod.fst
      else if vs.status = 1 then changeProcess P vs veh
      else some vs
  | some ls =>
      if vs.status = 0 then
        match initLaneChangeInfo P vs veh ls with
        | none => none
        | some (vs, ret) => if ret = 0 then changeProcess P vs veh else some vs
      else if vs.status = 1 then
        match vs.cinfo with
        | none => none
        | some info =>
            if info.step2Time ≠ info.step2Totaltime ∧ ls ∈ info.droute then changeProcess P vs veh
            else if info.step2Time = info.step2Totaltime ∧ ls ∈ info.croute then
              changeProcess P vs veh
            else
              match changeLaneInfo P vs veh ls with
              | none => none
              | some (vs, ret) => if ret > 0 then some vs else changeProcess P vs veh
      else some vs

end Planning

end V2I.Snapshot
