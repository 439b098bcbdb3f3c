import V2I.Lib.Visit
import V2I.Snapshot.Vehicle

/-!
# V2I.Snapshot.Junction

The part of `vehicle-planning.cpp` that carries a vehicle through the junction
(`junction_process` with the intelligent driver model in front of it), and
`missing_planning` for vehicles that are no longer observed.

A lane of an incoming road owns the list of the vehicles that entered the junction
through it; the list holds their ids.
-/

namespace V2I.Snapshot

open Std Double

/-- `fusion_junc_next_lane`. -/
structure JuncNextLane (L : Type) where
  lightId : ℤ
  nextLaneseg : L

/-- `fusion_junc_lane_info`; `init_junciton_info` leaves no null `curr_last_ls`. -/
structure JuncLaneInfo (L : Type) where
  laneId : ℤ
  currLastLs : L
  nextLanes : ExtTreeMap ℤ (JuncNextLane L)

/-- `incomming_road`. -/
structure IncommingRoad (F L : Type) where
  laneInfo : ExtTreeMap ℤ (JuncLaneInfo L)
  s : F

/-- `count_junction`: the lanes and roads where vehicles are counted. -/
structure CountJunction where
  incomLanes : List ℕ
  outgoingRoads : List ℕ

/-- `fusion_juncion_info`. -/
structure JuncionInfo (F L : Type) where
  junctionId : ℤ
  roadInfo : ExtTreeMap ℕ (IncommingRoad F L)
  countInfo : Option CountJunction

/-- The `root.ownerlist` of every incoming lane, by the keys of its road and itself. -/
abbrev Owners := ℕ → ℤ → List ℕ

/-- `listnode_add` to the list of a lane. -/
def Owners.add (o : Owners) (road : ℕ) (lane : ℤ) (id : ℕ) : Owners := fun r l =>
  if r = road ∧ l = lane then o r l ++ [id] else o r l

/-- `listnode_del`: take a vehicle out of the list it is in. -/
def Owners.del (o : Owners) (id : ℕ) : Owners := fun r l => (o r l).erase id

variable {F L : Type} [Double F] [DecidableEq L] (P : Planner F L)

/-! ## Moving on -/

/-- `update_incomming_vehicle`, as far as the vehicle is concerned. -/
def updateIncommingVehicle (v : VehItem F L) (cnt : CountJunction) (nlaneseg : Option L) :
    Option (VehItem F L) :=
  match v.curLane, nlaneseg with
  | some cur, some next =>
      if P.getLane cur ∈ cnt.incomLanes ∨ P.getLane next ∈ cnt.incomLanes then
        some { v with countIncomm := true }
      else some v
  | _, _ => none

/-- `update_outgoing_vehicle`, as far as the vehicle is concerned. -/
def updateOutgoingVehicle (v : VehItem F L) (cnt : CountJunction) (nlaneseg : Option L) :
    Option (VehItem F L) :=
  match v.curLane, nlaneseg with
  | some cur, some next =>
      if P.getRoad cur ∈ cnt.outgoingRoads ∨ P.getRoad next ∈ cnt.outgoingRoads then
        some { v with countOutgoing := true }
      else some v
  | _, _ => none

/-- The two counts of `status_process`. -/
def countVehicle (v : VehItem F L) (info : Option (JuncionInfo F L)) (nlaneseg : Option L) :
    Option (VehItem F L) :=
  match info.bind (·.countInfo) with
  | none => some v
  | some cnt =>
      match if v.countIncomm then some v else updateIncommingVehicle P v cnt nlaneseg with
      | none => none
      | some v => if v.countOutgoing then some v else updateOutgoingVehicle P v cnt nlaneseg

/-- The sideways part of `status_process`, for a vehicle that changed lanes on entry. -/
def driftAcross (v : VehItem F L) (dtime : F) : VehItem F L :=
  match v.cinfo with
  | none => v
  | some info =>
      let info := { info with step1Time := addTime info.step1Time dtime }
      let w := info.startPos + info.v * mstos (ofInt info.step1Time)
      let v := { v with pt := movePt v.pt (acrossHeading w v.hdg) }
      if info.step1Totaltime ≤ info.step1Time then { v with cinfo := none }
      else { v with cinfo := some info }

/-- `status_process(status, info, len, dtime)`: advance by `len` along the route. -/
def statusProcess (v : VehItem F L) (info : Option (JuncionInfo F L)) (len dtime : F) :
    Option (VehItem F L) :=
  match v.curLane with
  | none => none
  | some cur =>
      let r := P.getAdcAndPoint cur len v.pt v.pt v.hdg v.width
      match countVehicle P { v with width := r.w } info r.lane with
      | none => none
      | some v =>
          some (driftAcross
            { v with curLane := r.lane, pt := r.nextpt, hdg := r.hdg, bused := true } dtime)

/-- `get_vehcle_distance`: the way of a vehicle in `dtime`, with its new speed. -/
def getVehcleDistance (v : VehItem F L) (dtime : ℕ) : F × VehItem F L :=
  let t : F := mstos (ofInt dtime)
  let len := normalSpeed v.speed * t + v.a * squarePoint t / ofRat 2
  let speed := v.speed + toKmSpeed (v.a * t)
  if Double.lt speed (ofRat (1 / 10)) then
    (normalSpeed (ofRat 5) * t, { v with speed := ofRat 5 })
  else (len, { v with speed := speed })

/-! ## Entering the junction -/

/-- Does the light let vehicles through? -/
def lightEnabled (lights : ExtTreeMap ℤ ℤ) (lightId : ℤ) : Bool :=
  lightId < 0 || match lights[lightId]? with
    | none => false
    | some state => state < 3

/-- The incoming lane whose last segment the vehicle is on; of several roads the last. -/
def incommingLane (info : Option (JuncionInfo F L)) (cur : Option L) :
    Option (ℕ × IncommingRoad F L × ℤ × JuncLaneInfo L) :=
  match info with
  | none => none
  | some info =>
      info.roadInfo.toList.foldl (fun found rd =>
        match rd.2.laneInfo.toList.find? fun lane => cur = some lane.2.currLastLs with
        | none => found
        | some lane => some (rd.1, rd.2, lane.1, lane.2)) none

/-- The first lane that exists among the next four on one side, if its light is green;
`none` inside when the side has no such lane or a red one. -/
def nextOnSide (road : IncommingRoad F L) (lights : ExtTreeMap ℤ ℤ) (ids : List ℤ) :
    Option (Option (ℤ × JuncLaneInfo L)) :=
  match ids.find? fun id => road.laneInfo.contains id with
  | none => some none
  | some id =>
      match road.laneInfo[id]? with
      | none => some none
      | some lane =>
          match lane.nextLanes[(0 : ℤ)]? with
          | none => none
          | some next => if lightEnabled lights next.lightId then some (some (id, lane)) else some none

/-- `get_next_enable_laneseg`. -/
def getNextEnableLaneseg (road : IncommingRoad F L) (lights : ExtTreeMap ℤ ℤ) (laneid : ℤ) :
    Option (Option (ℤ × JuncLaneInfo L)) :=
  match nextOnSide road lights [laneid - 1, laneid - 2, laneid - 3, laneid - 4] with
  | none => none
  | some (some lane) => some (some lane)
  | some none => nextOnSide road lights [laneid + 1, laneid + 2, laneid + 3, laneid + 4]

/-- `junction_change_lane(status, laneinfo, len, self)`, but for the owner list. -/
def junctionChangeLane (v : VehItem F L) (lane : JuncLaneInfo L) (len : F) (self : Bool) :
    Option (VehItem F L) :=
  match lane.nextLanes[(0 : ℤ)]? with
  | none => none
  | some next =>
      let v := { v with status := 1, pt := { v.pt with s := ofRat 0 } }
      if self then some { v with curLane := some next.nextLaneseg }
      else
        let r := P.getAdcAndPoint next.nextLaneseg len v.pt v.pt v.hdg (ofRat 0)
        let right := sideOf (r.nextpt.pt.x - v.pt.pt.x) (r.nextpt.pt.y - v.pt.pt.y) v.hdg
        let startPos := (v.width + r.w) / ofRat 2 * ofInt right * ofRat (-1)
        some { v with
          curLane := some next.nextLaneseg, width := r.w
          cinfo := some
            { startPos := startPos,
              v := startPos * ofRat (-1) / mstos (ofInt (laneChangeMaxTime / 2)),
              dstDs := ofRat 0, dstW := ofRat 0,
              step1Totaltime := laneChangeMaxTime / 2, step1Time := 0, step1Acc := ofRat 0,
              step2Totaltime := 0, step2Time := 0, step2Acc := ofRat 0, dstLane := none,
              startSpeed := ofRat 0, croute := [], droute := [], right := 0 } }

/-- The way into the junction: change to the lane behind the stop line, then advance. -/
def enterJunction (info : Option (JuncionInfo F L)) (o : Owners) (v : VehItem F L) (road : ℕ)
    (laneKey : ℤ) (lane : JuncLaneInfo L) (len : F) (dtime : ℕ) (self : Bool) :
    Option (VehItem F L × Owners) :=
  match junctionChangeLane P v lane len self with
  | none => none
  | some v' =>
      (statusProcess P (getVehcleDistance v' dtime).2 info len (ofInt dtime)).map
        (·, o.add road laneKey v.vehItem.id)

/-- In front of the stop line: close up to it, or stand. -/
def approachStopLine (info : Option (JuncionInfo F L)) (v : VehItem F L) (s : F) (dtime : ℕ)
    (standing : VehItem F L) : Option (VehItem F L) :=
  if Double.lt (v.pt.s + ofRat 1) s then
    statusProcess P v info (s - v.pt.s - ofRat (2 / 10)) (ofInt dtime)
  else some standing

/-- `junction_process` for a vehicle on an incoming lane, `status == 0`. -/
def incommingProcess (info : Option (JuncionInfo F L)) (lights : ExtTreeMap ℤ ℤ) (o : Owners)
    (v : VehItem F L) (dtime : ℕ) (real : Bool) (found : ℕ × IncommingRoad F L × ℤ × JuncLaneInfo L) :
    Option (VehItem F L × Owners) :=
  let road := found.2.1
  let lane := found.2.2.2
  match lane.nextLanes[(0 : ℤ)]? with
  | none => none
  | some next =>
      let enableRun := lightEnabled lights next.lightId
      let v := if enableRun && Double.lt v.speed (ofRat 5) && !real
        then { v with speed := ofRat 9 } else v
      let len := normalSpeed v.speed * mstos (ofInt dtime)
      let ts := len + v.pt.s
      if Double.lt ts road.s then (statusProcess P v info len (ofInt dtime)).map (·, o)
      else if enableRun then
        enterJunction P info o v found.1 found.2.2.1 lane (ts - road.s) dtime true
      else if Double.lt v.speed (ofRat 10) then
        let v := { v with speed := ofRat 0 }
        (approachStopLine P info v road.s dtime v).map (·, o)
      else
        match getNextEnableLaneseg road lights lane.laneId with
        | none => none
        | some (some (key, lane')) =>
            enterJunction P info o v found.1 key lane' (ts - road.s) dtime false
        | some none =>
            (approachStopLine P info v road.s dtime { v with speed := ofRat 0 }).map (·, o)

/-- Is the lane segment outside the junction? `junid != info->junction_id` compares
32-bit values. -/
def outside (info : JuncionInfo F L) (ls : L) : Bool :=
  P.getJunctionid ls % 2 ^ 32 ≠ info.junctionId % 2 ^ 32

/-- `junction_process` for a vehicle inside the junction. -/
def insideProcess (info : Option (JuncionInfo F L)) (o : Owners) (v : VehItem F L)
    (dtime : ℕ) : Option (VehItem F L × Owners) :=
  let d := getVehcleDistance v dtime
  match statusProcess P d.2 info d.1 (ofInt dtime) with
  | none => none
  | some v =>
      match v.curLane with
      | none => some ({ v with bused := false }, o)
      | some ls =>
          match info with
          | none => none
          | some info => some (if outside P info ls then { v with bused := false } else v, o)

/-- `junction_process(status, info, lights, dtime, real)`. -/
def junctionProcess (info : Option (JuncionInfo F L)) (lights : ExtTreeMap ℤ ℤ) (o : Owners)
    (v : VehItem F L) (dtime : ℕ) (real : Bool) : Option (VehItem F L × Owners) :=
  if v.status = 0 then
    match incommingLane info v.curLane with
    | none => some ({ v with bused := false }, o)
    | some found => incommingProcess P info lights o v dtime real found
  else insideProcess P info o v dtime

/-! ## The intelligent driver model -/

/-- `calc_acceleration(prev, curr, max_speed)`. -/
def calcAcceleration (prev : Option (VehItem F L)) (curr : VehItem F L) (maxSpeed : F) : F :=
  let currSpeed := normalSpeed curr.speed
  let x := currSpeed / maxSpeed
  let maxAcc : F := ofRat 3
  let vaFree := maxAcc * (ofRat 1 - x * x * x * x)
  let vaInit : F :=
    match prev with
    | none => ofRat 0
    | some prev =>
        let deltaSpeed := currSpeed - normalSpeed prev.speed
        let dis := vehDistance (prev.pt.pt.x - curr.pt.pt.x) (prev.pt.pt.y - curr.pt.pt.y) -
          ofRat 5
        let dis := if Double.lt dis (ofRat 0) then ofRat (1 / 10) else dis
        let vaDv := currSpeed * deltaSpeed /
          (Double.sqrt (maxAcc * ofRat (167 / 100)) * ofRat 2)
        let sVaDv := ofRat 2 + currSpeed * ofRat (25 / 100) + vaDv
        ofRat (-1) * maxAcc * squarePoint (sVaDv / dis)
  vaFree + vaInit

/-- The speed a vehicle aims at: its observed one within bounds. -/
def desiredSpeed (v : VehItem F L) : F :=
  let rspeed := normalSpeed v.vehItem.speed
  let rspeed := if Double.lt (ofRat 12) rspeed then ofRat 12
    else if Double.lt rspeed (ofRat 5) then ofRat 5 else rspeed
  rspeed * ofRat 1

/-- A table of vehicles, `std::map<uint32_t, spfusion_veh_item>`. -/
abbrev Table (F L : Type) := ExtTreeMap ℕ (VehItem F L)

/-- `junction_idm_process(root, dtime)`: along the list, each vehicle reacts to the one
before it. -/
def junctionIdmProcess (vehs : Table F L) : Option (VehItem F L) → List ℕ → Option (Table F L)
  | _, [] => some vehs
  | prev, id :: ids =>
      match vehs[id]? with
      | none => none
      | some item =>
          let item := { item with a := calcAcceleration prev item (desiredSpeed item) }
          junctionIdmProcess (vehs.insert id item) (some item) ids

/-- `junction_idm_planning(info, dtime)`. -/
def junctionIdmPlanning (info : Option (JuncionInfo F L)) (o : Owners) (vehs : Table F L) :
    Option (Table F L) :=
  match info with
  | none => some vehs
  | some info =>
      info.roadInfo.toList.foldlM (fun vehs rd =>
        rd.2.laneInfo.toList.foldlM (fun vehs lane =>
          junctionIdmProcess vehs none (o rd.1 lane.1)) vehs) vehs

/-! ## The planning stages -/

/-- A run of `junction_process`: the vehicle and the time step. -/
abbrev Call := ℕ × ℕ

/-- `normal_planning(status, info, veh)`. -/
def normalPlanning (status : Table F L) (info : Option (JuncionInfo F L)) (veh : VehItem F L) :
    Option (Table F L) :=
  let index := veh.vehItem.id
  match status[index]? with
  | some st =>
      if st.badItem then
        some (status.insert index { st with
          timestamp := veh.timestamp, vehItem := veh.vehItem, bused := true })
      else
        let found := P.findLaneseg veh.pt.pt veh.hdg
        let veh := { veh with pt := { veh.pt with pt := found.src }, hdg := found.hdg }
        match found.lane with
        | none =>
            (updateStatus P { st with bused := true } veh none).map (status.insert index ·)
        | some laneseg =>
            if Double.isnan st.pt.s || (st.curLane = some laneseg && st.status = 0) then
              let veh := { veh with status := 0, curLane := some laneseg, pt := found.center }
              if Double.lt st.pt.s found.center.s then
                some (status.insert index { veh with bused := true })
              else
                some (status.insert index { st with
                  vehItem := veh.vehItem, speed := veh.speed, timestamp := veh.timestamp,
                  bused := true })
            else
              let veh := { veh with curLane := some laneseg, pt := found.center }
              (updateStatus P { st with bused := true } veh (some laneseg)).map
                (status.insert index ·)
  | none =>
      let found := P.findLaneseg veh.pt.pt veh.hdg
      match found.lane with
      | none => some status
      | some laneseg =>
          if beyond (angleDiff (normalizeAngle (cog2deg veh.vehItem.hdg))
              (normalizeAngle (cog2deg found.hdg))) quarterPi then some status
          else
            let bad : Bool := match info with
              | none => veh.badItem
              | some info => if info.junctionId = P.getJunctionid laneseg then true else veh.badItem
            some (status.insert index { veh with
              hdg := found.hdg, status := 0, curLane := some laneseg, pt := found.center,
              bused := true, badItem := bad })

/-- The time step of an observed vehicle in the junction: what has passed since its time
stamp, as 32-bit value, and 100 when that is more than a second. -/
def observedTime (pkgtime timestamp : ℕ) : ℕ :=
  let dtime := diff64 pkgtime timestamp % 2 ^ 32
  if 1000 < dtime then 100 else dtime

/-- What the observed pass writes into the record before it calls `junction_process`. -/
def observed (v veh : VehItem F L) : VehItem F L :=
  { v with
    bused := true, vehItem := veh.vehItem, timestamp := veh.timestamp,
    speed := if v.status = 0 then veh.speed else v.speed }

/-- `junction_planning(vehs, info, lights, veh)`: the observed pass. -/
def junctionPlanningObserved (vehs : Table F L) (info : Option (JuncionInfo F L))
    (lights : ExtTreeMap ℤ ℤ) (o : Owners) (veh : VehItem F L) :
    Option (Table F L × Owners × List Call) :=
  let index := veh.vehItem.id
  match vehs[index]? with
  | none => none
  | some v =>
      let dtime := observedTime veh.timestamp v.timestamp
      match junctionProcess P info lights o (observed v veh) dtime true with
      | none => none
      | some (v, o) => some (vehs.insert index v, o, [(index, dtime)])

/-- `junction_planning(vehs, info, lights, dtime)`: the pass over the vehicles that were
not observed. -/
def junctionPlanning (vehs : Table F L) (info : Option (JuncionInfo F L)) (lights : ExtTreeMap ℤ ℤ)
    (o : Owners) (dtime : ℕ) : Option ((Owners × List Call) × Table F L) :=
  visitM (fun acc id v =>
    if v.bused then some (acc, some v)
    else
      let v := { v with bused := true, timestamp := (v.timestamp + dtime) % 2 ^ 64 }
      match junctionProcess P info lights acc.1 v dtime false with
      | none => none
      | some (v, o) => some ((o, acc.2 ++ [(id, dtime)]), some v)) (o, []) vehs

/-- One vehicle of `missing_planning`; `some none` erases it. -/
def missingStep (v : VehItem F L) (dtime : ℕ) : Option (Option (VehItem F L)) :=
  if v.badItem then some none
  else
    let v := if Double.lt v.speed (ofRat 5) then { v with speed := ofRat 20 } else v
    let len := normalSpeed v.speed * mstos (ofInt dtime)
    match v.curLane with
    | none => none
    | some cur =>
        let r := P.getAdcAndPoint cur len v.pt v.pt v.hdg v.width
        if Double.isnan v.pt.pt.x || Double.isnan v.pt.pt.y then some none
        else
          match r.lane with
          | none => some none
          | some nlaneseg =>
              if Double.eq v.pt.pt.x r.nextpt.pt.x && Double.eq v.pt.pt.y r.nextpt.pt.y then
                some none
              else
                some (some { v with
                  timestamp := (v.timestamp + dtime) % 2 ^ 64, hdg := r.hdg, width := r.w,
                  pt := r.nextpt, curLane := some nlaneseg })

/-- `missing_planning(vehs, info, dtime)`. -/
def missingPlanning (vehs : Table F L) (dtime : ℕ) : Option (Table F L) :=
  (visitM (fun _ _ v => (missingStep P v dtime).map ((), ·)) () vehs).map Prod.snd

end V2I.Snapshot
