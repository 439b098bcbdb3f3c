import V2I.Lib.Double
import V2I.Lib.Machine
import V2I.Lib.Visit

/-!
# V2I.Fusion.Fuser

The fusion service: `Fuser::ProcessOneFrame` turns the frames of the radar devices of a
junction into vehicle states, `Fuser::fuse_frame` publishes them, and
`device_fusion::on_recv` keeps one `Fuser` per junction. All fusers draw the ids of their
vehicles from the one `VehicleID`.

The Kalman filter, the positions and the association box are a `Kinematics`; a run whose
id counter passes `INT_MAX`, or that follows a null pointer, has no result.
-/

namespace V2I.Fusion

open Std

/-- A `VehicleObs`: its id, its class and what was measured. -/
structure VehicleObs (O : Type) where
  id : ℕ
  objClass : ℕ
  measured : O

/-- A `RaysunFrame`. -/
structure RaysunFrame (O : Type) where
  devid : ℤ
  timestamp : ℕ
  targets : List (VehicleObs O)

/-- A `VehicleState`: `motion` is the filter with the position, heading, speed and size. -/
structure VehicleState (F M : Type) where
  id : ℤ
  timestamp : ℕ
  objClass : ℕ
  obsDevTargetId : ExtTreeMap ℤ ℕ
  ttl : F
  motion : M

/-- What the filter and the geometry compute. -/
structure Kinematics (M O : Type) where
  /-- `VehicleState::Init` -/
  init : O → M
  /-- `spFilter_->Predict`, by milliseconds -/
  predict : M → ℤ → M
  /-- `spFilter_->Correct` and what `Update2` copies -/
  correct : M → O → M
  /-- the box around a vehicle in `isAssociated` -/
  close : O → M → Bool
  /-- the new position of a target in `PropagateFrame` -/
  move : O → ℤ → O

/-- `std::map<int, spVehicleState>` -/
abbrev States (F M : Type) := ExtTreeMap ℤ (VehicleState F M)

/-- The members of a `Fuser` and of its `Cacher`. -/
structure Fuser (F M O : Type) where
  namedBuff : ExtTreeMap ℤ (ExtTreeMap ℕ (RaysunFrame O))
  vehicleStates : States F M
  removedVehicleStates : States F M
  currentTime : ℕ
  lastTime : ℕ

/-- A new `Fuser`. -/
def Fuser.new (F M O : Type) : Fuser F M O := ⟨∅, ∅, ∅, 0, 0⟩

/-- `RAYSUN_TARGET_TYPE_PEDESTRIAN` -/
def raysunTargetTypePedestrian : ℕ := 1

/-- `VehicleID::get_new_id`: the counter starts at -1. -/
def getNewId (idValue : ℤ) : Option ℤ := if idValue < 2 ^ 31 - 1 then some (idValue + 1) else none

variable {F M O : Type} [Double F]

/-- `ttl_limit_` -/
def ttlLimit : F := Double.ofRat 1

/-! ## the cacher -/

/-- `Cacher::push_back` for one device: frames older than the newest by more than `duration`
milliseconds go once the buffer spans that long. -/
def pushBack (duration : ℕ) (buff : ExtTreeMap ℤ (ExtTreeMap ℕ (RaysunFrame O)))
    (msg : RaysunFrame O) : ExtTreeMap ℤ (ExtTreeMap ℕ (RaysunFrame O)) :=
  let single := (buff[msg.devid]?.getD ∅).insert msg.timestamp msg
  let newest := single.maxKeyD msg.timestamp
  let oldest := single.minKeyD msg.timestamp
  let single :=
    if duration ≤ newest - oldest then single.filter fun t _ => newest - duration ≤ t
    else single
  buff.insert msg.devid single

/-- `Cacher::GetNearestFrame`: the last frame of a device that is not after `timestamp`. -/
def getNearestFrame (single : ExtTreeMap ℕ (RaysunFrame O)) (timestamp : ℕ) :
    Option (RaysunFrame O) :=
  (single.getEntryLE? timestamp).map Prod.snd

/-! ## one frame -/

section

variable (K : Kinematics M O)

/-- `Predictor::PropagateFrame` -/
def propagateFrame (ori : RaysunFrame O) (dt : ℤ) : RaysunFrame O :=
  { ori with
    timestamp := (ori.timestamp + dt).toNat
    targets := ori.targets.map fun obs => { obs with measured := K.move obs.measured dt } }

/-- `Fuser::GetSyncFrames` -/
def getSyncFrames (buff : ExtTreeMap ℤ (ExtTreeMap ℕ (RaysunFrame O))) (frame : RaysunFrame O) :
    List (RaysunFrame O) :=
  buff.toList.filterMap fun dev =>
    match getNearestFrame dev.2 frame.timestamp with
    | none => none
    | some matched =>
        let dt : ℤ := frame.timestamp - matched.timestamp
        if dt < 1000 then some (propagateFrame K matched dt) else none

/-- `VehicleState::PropagateVehicle2` -/
def VehicleState.propagate (v : VehicleState F M) (currentTime : ℕ) : VehicleState F M :=
  let dt : ℤ := currentTime - v.timestamp
  { v with
    motion := K.predict v.motion dt
    timestamp := currentTime
    ttl := v.ttl - Double.ofInt dt / Double.ofRat 1000 }

/-- `VehicleState::Update2` -/
def VehicleState.update (v : VehicleState F M) (obs : VehicleObs O) : VehicleState F M :=
  { v with ttl := ttlLimit, motion := K.correct v.motion obs.measured }

/-- The time to live is over. -/
def VehicleState.expired (v : VehicleState F M) : Bool := Double.lt v.ttl (Double.ofRat 0)

/-- `Predictor::PropagateVehicles`: the vehicles that stay, and those that are removed. -/
def propagateVehicles (vehicles : States F M) (currentTime : ℕ) : States F M × States F M :=
  (vehicles.filterMap fun _ v => if v.expired then none else some (v.propagate K currentTime),
    vehicles.filter fun _ v => v.expired)

/-- `Fuser::isTracked`: the id of the first vehicle that claims the target of the device. -/
def isTracked (devid : ℤ) (targetId : ℕ) (vehicles : States F M) : Option ℤ :=
  (vehicles.toList.find? fun v => v.2.obsDevTargetId[devid]? = some targetId).map fun v => v.2.id

/-- `Fuser::isAssociated`: the id of the first vehicle close to the observation, of its kind,
that has no target of the device yet. -/
def isAssociated (devid : ℤ) (obs : VehicleObs O) (vehicles : States F M) : Option ℤ :=
  (vehicles.toList.find? fun v =>
    (obs.objClass = raysunTargetTypePedestrian ↔ v.2.objClass = raysunTargetTypePedestrian) ∧
      v.2.obsDevTargetId[devid]? = none ∧ K.close obs.measured v.2.motion).map fun v => v.2.id

/-- `Fuser::AddVehicleState`. It is declared `bool` and returns nothing, which C++ leaves undefined;
it is read as returning, since no caller looks at the value. -/
def addVehicleState (vehicles : States F M) (idValue : ℤ) (devid : ℤ) (timestamp : ℕ)
    (obs : VehicleObs O) : Option (States F M × ℤ) :=
  (getNewId idValue).map fun newId =>
    (vehicles.insert newId
      ⟨newId, timestamp, obs.objClass, (∅ : ExtTreeMap ℤ ℕ).insert devid obs.id, ttlLimit,
        K.init obs.measured⟩, newId)

/-- The body of the loop of `Fuser::UpdateVehicleStates` -/
def updateVehicleState (devid : ℤ) (timestamp : ℕ) (acc : States F M × ℤ) (obs : VehicleObs O) :
    Option (States F M × ℤ) :=
  match isTracked devid obs.id acc.1 with
  | some id =>
      acc.1[id]?.map fun v =>
        (acc.1.insert id ({ v with timestamp := timestamp }.update K obs), acc.2)
  | none =>
      match isAssociated K devid obs acc.1 with
      | some id =>
          acc.1[id]?.map fun v =>
            let claims := v.obsDevTargetId.insert devid obs.id
            (acc.1.insert id
              ({ v with obsDevTargetId := claims, timestamp := timestamp }.update K obs), acc.2)
      | none => addVehicleState K acc.1 acc.2 devid timestamp obs

/-- `Fuser::UpdateVehicleStates` -/
def updateVehicleStates (acc : States F M × ℤ) (syncFrames : List (RaysunFrame O)) :
    Option (States F M × ℤ) :=
  syncFrames.foldlM
    (fun acc frame => frame.targets.foldlM (updateVehicleState K frame.devid frame.timestamp) acc)
    acc

/-- `Fuser::ProcessOneFrame`, with the id counter before and after. -/
def processOneFrame (duration : ℕ) (s : Fuser F M O) (idValue : ℤ) (frame : RaysunFrame O) :
    Option (Fuser F M O × ℤ) :=
  let s := { s with namedBuff := pushBack duration s.namedBuff frame }
  -- a frame that is not newer is only kept in the cache
  if frame.timestamp ≤ s.currentTime then some (s, idValue)
  else
    let s := { s with lastTime := s.currentTime, currentTime := frame.timestamp }
    if s.currentTime = s.lastTime then some (s, idValue)
    else
      let syncFrames := getSyncFrames K s.namedBuff frame
      let (vehicles, removed) := propagateVehicles K s.vehicleStates frame.timestamp
      (updateVehicleStates K (vehicles, idValue) syncFrames).map fun acc =>
        ({ s with vehicleStates := acc.1, removedVehicleStates := removed }, acc.2)

/-! ## packages -/

/-- A `junction_fusion_package`. -/
structure JunctionFusionPackage (O : Type) where
  radarInfo : List (RaysunFrame O)
  fusionEndtime : ℕ

/-- A published target; the fields after the class are those of `motion`. -/
structure Target (M : Type) where
  id : ℤ
  cls : ℕ
  motion : M

/-- A `fusion_service_pkg`, and the vehicle states after each frame that went into it. -/
structure FusionServicePkg (F M : Type) where
  rmItem : List (Target M)
  fusPkg : List (Target M)
  after : List (States F M)

/-- `Fuser::set_fusion_target` -/
def setFusionTarget (v : VehicleState F M) : Target M := ⟨v.id, v.objClass, v.motion⟩

/-- `Fuser::set_fusion` -/
def setFusion (vehicles : States F M) : List (Target M) :=
  vehicles.toList.map fun v => setFusionTarget v.2

/-- One `radar_info` of a package: the frame is processed and what it removed is reported. -/
def fuseRadarInfo (duration : ℕ) (acc : Fuser F M O × ℤ × FusionServicePkg F M)
    (frame : RaysunFrame O) : Option (Fuser F M O × ℤ × FusionServicePkg F M) :=
  (processOneFrame K duration acc.1 acc.2.1 frame).map fun r =>
    ({ r.1 with removedVehicleStates := ∅ }, r.2,
      { acc.2.2 with
        rmItem := acc.2.2.rmItem ++ setFusion r.1.removedVehicleStates
        after := acc.2.2.after ++ [r.1.vehicleStates] })

/-- `Fuser::fuse_frame`: the new state, the id counter, the package and the code returned. -/
def fuseFrame (duration : ℕ) (s : Fuser F M O) (idValue : ℤ) (inpkg : JunctionFusionPackage O) :
    Option (Fuser F M O × ℤ × FusionServicePkg F M × ℤ) :=
  if inpkg.radarInfo = [] then some (s, idValue, ⟨[], [], []⟩, -1)
  else if inpkg.fusionEndtime = 0 then some (s, idValue, ⟨[], [], []⟩, -2)
  else
    (inpkg.radarInfo.foldlM (fuseRadarInfo K duration) (s, idValue, ⟨[], [], []⟩)).map fun r =>
      (r.1, r.2.1, { r.2.2 with fusPkg := setFusion r.1.vehicleStates }, 0)

/-! ## the service -/

/-- The fusers of all junctions, those not created yet being new ones, and the `VehicleID`. -/
structure Service (F M O : Type) where
  fusers : String → Fuser F M O
  idValue : ℤ

/-- The service right after its start. -/
def Service.new (F M O : Type) : Service F M O := ⟨fun _ => Fuser.new F M O, -1⟩

/-- `device_fusion::on_recv`: a package of one junction. -/
def onRecv (duration : ℕ) (s : Service F M O) (call : String × JunctionFusionPackage O) :
    Option (Service F M O × String × FusionServicePkg F M) :=
  (fuseFrame K duration (s.fusers call.1) s.idValue call.2).map fun r =>
    (⟨Function.update s.fusers call.1 r.1, r.2.1⟩, call.1, r.2.2.1)

/-- A frame handed to the fuser of one junction. -/
def onFrame (duration : ℕ) (s : Service F M O) (call : String × RaysunFrame O) :
    Option (Service F M O × Unit) :=
  (processOneFrame K duration (s.fusers call.1) s.idValue call.2).map fun r =>
    (⟨Function.update s.fusers call.1 r.1, r.2⟩, ())

end

end V2I.Fusion
