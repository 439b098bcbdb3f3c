import V2I.Lib.Double
import V2I.Lib.Machine
import V2I.Lib.Ring
import V2I.Lib.StdMap
import V2I.Zasbsc

/-!
# V2I.Snapshot.JunctionLists

The lists of the vehicles at each junction: `update_snapshot` and `remove_snapshot` of
`vss_snapshot` (`snapshot.cpp`), `update_snapshot` and `add_vehicle_to_junction` of
`device_snapshot` (`device-snapshot.cpp`).

A junction item holds the head `veh_list`, a vehicle item the node `junctionownerlist` that
hangs in it. The AVL trees that find items by their key are maps, an item is known by its
address. A call has no result where the program ends: a null pointer is followed, or
`stoi` or `stoull` throws.
-/

namespace V2I.JunctionLists

/-! ## Numbers and strings -/

def isspace (b : UInt8) : Bool := b == 32 || (9 ≤ b && b ≤ 13)

def isdigit (b : UInt8) : Bool := 48 ≤ b && b ≤ 57

/-- The value of decimal digits. -/
def digitsValue (ds : Bytes) : ℕ := ds.foldl (fun n b => 10 * n + (b.toNat - 48)) 0

/-- The sign and the magnitude at the front of a string, none when there are no digits. -/
def parseDecimal (s : Bytes) : Option (Bool × ℕ) :=
  let s := s.dropWhile isspace
  let negative := s.head? = some 45
  let s := if s.head? = some 45 ∨ s.head? = some 43 then s.tail else s
  match s.takeWhile isdigit with
  | [] => none
  | ds => some (negative, digitsValue ds)

/-- `std::stoi`, none when it throws. -/
def stoi (s : Bytes) : Option ℤ :=
  match parseDecimal s with
  | none => none
  | some (negative, n) =>
      let v : ℤ := if negative then -n else n
      if -2 ^ 31 ≤ v ∧ v < 2 ^ 31 then some v else none

/-- `std::stoull`, none when it throws; a sign negates the unsigned value. -/
def stoull (s : Bytes) : Option UInt64 :=
  match parseDecimal s with
  | none => none
  | some (negative, n) =>
      if n < 2 ^ 64 then some (if negative then -UInt64.ofNat n else UInt64.ofNat n) else none

/-- `std::to_string` -/
def toString (n : ℕ) : Bytes := (Nat.toDigits 10 n).map fun c => UInt8.ofNat c.toNat

/-! ## Items -/

/-- `DEVICE_SNAPSHOT_CACHER` -/
def deviceSnapshotCacher : ℕ := 4096

/-- `VEHICLE_SNAPSHOT_HISTORY_MAX` -/
def vehicleSnapshotHistoryMax : ℕ := 20

/-- `VEHICLE_IN_JUNCTION_MAX_DISTANCE` -/
def vehicleInJunctionMaxDistance : ℚ := 100

/-- `radar_vision_info` -/
structure RadarVisionInfo where
  id : UInt64
  timestamp : UInt64

/-- `device_info` -/
structure DeviceInfo where
  index : ℕ
  inited : Bool
  info : ℕ → RadarVisionInfo

/-- `device_junction_item` at its address. -/
structure DeviceJunctionItem where
  addr : ℕ
  deviceTree : StdMap Bytes DeviceInfo

/-- `positioning_system_info` -/
structure PositioningSystemInfo (F : Type) where
  latitude : F
  longtitude : F

/-- `vehicle_snapshot_item` at its address. -/
structure VehicleSnapshotItem (F : Type) where
  addr : ℕ
  index : ℕ
  snapshot : ℕ → PositioningSystemInfo F

/-- The list nodes inside the items: `veh_list` and `veh_prev_list` of a junction,
`junctionownerlist` and `junprevownerlist` of a vehicle. -/
inductive Node where
  | vehList (junction : ℕ)
  | vehPrevList (junction : ℕ)
  | junctionownerlist (vehicle : ℕ)
  | junprevownerlist (vehicle : ℕ)
  deriving DecidableEq

/-- What operator `new` does in one call: an address that no item has. -/
structure Allocator where
  addr : List ℕ → ℕ
  addr_notMem : ∀ used, addr used ∉ used

/-- The two snapshots. -/
structure Snapshots (F : Type) where
  heap : ListHeap Node
  vehicles : StdMap Bytes (VehicleSnapshotItem F)
  junctions : StdMap Bytes DeviceJunctionItem

/-- `rendermap_nearest_junctions`: the id of a junction, none for a null pointer. -/
structure RendermapNearestJunctions (F : Type) where
  junction : Option UInt32
  distance : F

/-- The map: `_proj->transform`, none when no map was loaded, `_projoffset` and
`_hdmap->find_junctions`. -/
structure Map (F : Type) where
  transform : Option (F → F → F × F)
  projoffset : F × F
  findJunctions : F → F → ℕ → List (RendermapNearestJunctions F)

/-- Negative return values. -/
inductive Error where
  | EBADPARM
  | ENOTFOUND
  | eexists
  | elogic
  deriving DecidableEq

/-- A return value, 0 for success. -/
abbrev Reply := Except Error Unit

variable {F : Type}

/-- No vehicle, no junction. -/
def Snapshots.new : Snapshots F := ⟨.empty, .empty, .empty⟩

/-- The addresses that vehicle items have. -/
def Snapshots.vehicleAddrs (s : Snapshots F) : List ℕ := s.vehicles.entries.map fun e => e.2.addr

/-- The addresses that junction items have. -/
def Snapshots.junctionAddrs (s : Snapshots F) : List ℕ := s.junctions.entries.map fun e => e.2.addr

/-! ## Devices -/

/-- `check_create_junction_item(uid)`: the lists of a new junction are not initialised. Where
`stoul` throws, `stoi` does, too. -/
def checkCreateJunctionItem (s : Snapshots F) (new : Allocator) (uid : Bytes) :
    Option (Snapshots F × DeviceJunctionItem) :=
  match s.junctions.find uid with
  | some item => some (s, item)
  | none =>
      match stoi uid with
      | none => none
      | some _ =>
          let item := ⟨new.addr s.junctionAddrs, .empty⟩
          some ({ s with
            heap := (s.heap.alloc (.vehList item.addr)).alloc (.vehPrevList item.addr)
            junctions := s.junctions.set uid item }, item)

/-- `check_create_device_item(item, uid)` -/
def checkCreateDeviceItem (heap : ListHeap Node) (item : DeviceJunctionItem) (uid : Bytes) :
    Option (ListHeap Node × DeviceJunctionItem × DeviceInfo) :=
  match item.deviceTree.find uid with
  | some info => some (heap, item, info)
  | none => do
      let info : DeviceInfo := ⟨0, true, fun _ => ⟨0, 0⟩⟩
      let heap ← heap.init (.vehList item.addr)
      let heap ← heap.init (.vehPrevList item.addr)
      return (heap, { item with deviceTree := item.deviceTree.insert uid info }, info)

/-- `add_device_info(device, info)`: the device, or the error that leaves it as it is. -/
def addDeviceInfo (device : DeviceInfo) (info : RadarVisionInfo) : Except Error DeviceInfo :=
  let currid := (device.index + deviceSnapshotCacher - 1) % deviceSnapshotCacher
  if !device.inited && info.timestamp ≤ (device.info currid).timestamp then .error .eexists
  else .ok ⟨(device.index + 1) % deviceSnapshotCacher, false,
    Function.update device.info device.index info⟩

/-- The loop of `update_snapshot` over the devices of a package. -/
def reportDevices : List RadarVisionInfo → ListHeap Node → DeviceJunctionItem →
    Option (ListHeap Node × DeviceJunctionItem × Reply)
  | [], heap, item => some (heap, item, .ok ())
  | rinfo :: rest, heap, item =>
      let radaruid := toString rinfo.id.toNat
      match checkCreateDeviceItem heap item radaruid with
      | none => none
      | some (heap, item, info) =>
          match addDeviceInfo info rinfo with
          | .error _ => some (heap, item, .error .elogic)
          | .ok info =>
              reportDevices rest heap { item with deviceTree := item.deviceTree.set radaruid info }

/-- `start_time` of a call, 0 when it is not given. -/
def startTime (recTime : Bytes) : Option UInt64 :=
  if recTime.length > 0 then stoull recTime else some 0

/-- `device_snapshot::update_snapshot(vincode, info, data)`; the package is none when there is
no data. What is sent on from here touches no list. -/
def deviceUpdateSnapshot (s : Snapshots F) (new : Allocator) (vincode recTime : Bytes)
    (junpkg : Option (List RadarVisionInfo)) : Option (Snapshots F × Reply) :=
  if vincode.length = 0 then some (s, .error .EBADPARM)
  else
    match junpkg with
    | none => some (s, .error .EBADPARM)
    | some radarInfo => do
        let (s, item) ← checkCreateJunctionItem s new vincode
        let _ ← startTime recTime
        let (heap, item, ret) ← reportDevices radarInfo s.heap item
        return ({ s with heap, junctions := s.junctions.set vincode item }, ret)

/-! ## Vehicles -/

section Vehicles

variable [Double F] (map : Map F)

/-- The junction `add_vehicle_to_junction` looks up: the nearest one, when it is near and has
reported. The outer `none` is a null pointer. -/
def junctionOf (s : Snapshots F) (gps : PositioningSystemInfo F) : Option (Option Bytes) :=
  if s.junctions.entries.isEmpty then some none
  else
    match map.transform with
    | none => none
    | some transform =>
        let (x, y) := transform gps.longtitude gps.latitude
        match map.findJunctions (x - map.projoffset.1) (y - map.projoffset.2) 1 with
        | [] => some none
        | jitem :: _ =>
            if Double.lt (Double.ofRat vehicleInJunctionMaxDistance) jitem.distance then some none
            else
              match jitem.junction with
              | none => none
              | some id =>
                  let juncid := toString id.toNat
                  match s.junctions.find juncid with
                  | none => some none
                  | some _ => some (some juncid)

/-- `add_vehicle_to_junction(item)` -/
def addVehicleToJunction (s : Snapshots F) (item : VehicleSnapshotItem F) :
    Option (Snapshots F × Reply) :=
  match junctionOf map s (item.snapshot item.index) with
  | none => none
  | some none => some (s, .error .ENOTFOUND)
  | some (some juncid) =>
      match s.junctions.find juncid with
      | none => some (s, .error .ENOTFOUND)
      | some jucitem => do
          let heap ← s.heap.add (.vehList jucitem.addr) (.junctionownerlist item.addr)
          return ({ s with heap }, .ok ())

/-- `update_to_junction(item)` -/
def updateToJunction (s : Snapshots F) (item : VehicleSnapshotItem F) : Option (Snapshots F) := do
  let heap ← s.heap.del (.junctionownerlist item.addr)
  let heap ← heap.del (.junprevownerlist item.addr)
  let (s, _) ← addVehicleToJunction map { s with heap } item
  return s

/-- The item of a vehicle, a new one for an unknown vehicle. -/
def checkCreateVehicleItem (s : Snapshots F) (new : Allocator) (vincode : Bytes) :
    Option (Snapshots F × VehicleSnapshotItem F) :=
  match s.vehicles.find vincode with
  | some item => some (s, { item with index := (item.index + 1) % vehicleSnapshotHistoryMax })
  | none => do
      let item := ⟨new.addr s.vehicleAddrs, 0, fun _ => ⟨Double.ofRat 0, Double.ofRat 0⟩⟩
      let heap := (s.heap.alloc (.junctionownerlist item.addr)).alloc (.junprevownerlist item.addr)
      let heap ← heap.init (.junctionownerlist item.addr)
      let heap ← heap.init (.junprevownerlist item.addr)
      return ({ s with heap }, item)

/-- `vss_snapshot::update_snapshot(vincode, info, data)`; the position is none when there is
no data. -/
def vehicleUpdateSnapshot (s : Snapshots F) (new : Allocator) (vincode recTime : Bytes)
    (gps : Option (PositioningSystemInfo F)) : Option (Snapshots F × Reply) :=
  if vincode.length = 0 then some (s, .error .EBADPARM)
  else
    match gps with
    | none => some (s, .error .EBADPARM)
    | some gps => do
        let (s, item) ← checkCreateVehicleItem s new vincode
        let _ ← startTime recTime
        let item := { item with snapshot := Function.update item.snapshot item.index gps }
        let s := { s with vehicles := s.vehicles.set vincode item }
        return (← updateToJunction map s item, .ok ())

end Vehicles

/-- `remove_snapshot(vid)`: the item is deleted, `junctionownerlist` is not taken out. -/
def removeSnapshot (s : Snapshots F) (vid : Bytes) : Snapshots F × Reply :=
  match s.vehicles.find vid with
  | none => (s, .error .ENOTFOUND)
  | some item =>
      ({ s with
          heap := (s.heap.free (.junctionownerlist item.addr)).free (.junprevownerlist item.addr)
          vehicles := s.vehicles.erase vid }, .ok ())

end V2I.JunctionLists
