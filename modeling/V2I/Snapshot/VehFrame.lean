import Mathlib.Data.List.Induction

/-!
# V2I.Snapshot.VehFrame

The vehicles of a fusion frame: `update_snapshot` of `vss_snapshot` (`snapshot.cpp`) writes
the snapshots of a vehicle into a ring, `generate_veh_frame` of `device_snapshot`
(`device-snapshot.cpp`) looks up what the vehicles of a junction sent before `endtime`.

`F` is the type of the numbers that are only copied. A time stamp is computed from two
`int64` fields and kept in a `uint64_t`.
-/

namespace V2I.VehFrame

/-- `VEHICLE_SNAPSHOT_HISTORY_MAX` -/
def vehicleSnapshotHistoryMax : ℕ := 20

/-- `positioning_system_info` -/
structure PositioningSystemInfo (F : Type) where
  latitude : F
  longtitude : F
  heading : F
  deriving DecidableEq

/-- `vsnapshot_package` -/
structure VsnapshotPackage (F : Type) where
  timestampSec : Int64
  timestampUsec : Int64
  gpsinfo : PositioningSystemInfo F
  vehicleSpeed : F
  deriving DecidableEq

/-- `vehicle_snapshot` -/
structure VehicleSnapshot (F : Type) where
  vincode : String
  package : VsnapshotPackage F
  deriving DecidableEq

/-- `vehicle_info` -/
structure VehicleInfo (F : Type) where
  id : String
  timestamp : UInt64
  lat : F
  lon : F
  heading : F
  speed : F
  deriving DecidableEq

/-- `vehicle_snapshot_item`, of an array only the entries below its size. -/
structure VehicleSnapshotItem (F : Type) where
  vid : String
  index : ℕ
  snapshot : ℕ → VehicleSnapshot F

/-- `device_junction_item` with the vehicles that hang in its lists. -/
structure DeviceJunctionItem (F : Type) where
  vehList : List (VehicleSnapshotItem F)
  vehPrevList : List (VehicleSnapshotItem F)

variable {F : Type}

/-- `timestamp_sec() * 1000 + timestamp_usec() / 1000` as `uint64_t`. -/
def VsnapshotPackage.timestamp (p : VsnapshotPackage F) : UInt64 :=
  (p.timestampSec * 1000 + p.timestampUsec / 1000).toUInt64

/-- The record that a frame gets from a snapshot. -/
def VehicleSnapshot.vehicleInfo (s : VehicleSnapshot F) : VehicleInfo F :=
  { id := s.vincode, timestamp := s.package.timestamp, lat := s.package.gpsinfo.latitude,
    lon := s.package.gpsinfo.longtitude, heading := s.package.gpsinfo.heading,
    speed := s.package.vehicleSpeed }

/-! ## The ring writer -/

section Writer

variable [Zero F]

/-- A message after `Clear`. -/
def VehicleSnapshot.clear : VehicleSnapshot F := ⟨"", ⟨0, 0, ⟨0, 0, 0⟩, 0⟩⟩

/-- The slot that `update_snapshot` fills: the first one of a new item, else the next. -/
def nextSlot (vincode : String) : Option (VehicleSnapshotItem F) → VehicleSnapshotItem F
  | none => { vid := vincode, index := 0, snapshot := fun _ => .clear }
  | some item => { item with index := (item.index + 1) % vehicleSnapshotHistoryMax }

/-- `update_snapshot` on the item of `vincode`, if it is known. -/
def updateSnapshot (vincode : String) (item : Option (VehicleSnapshotItem F))
    (package : VsnapshotPackage F) : VehicleSnapshotItem F :=
  let item := nextSlot vincode item
  { item with snapshot := Function.update item.snapshot item.index ⟨vincode, package⟩ }

end Writer

/-! ## The reader -/

/-- Does a slot of the ring walk lie in the 100 ms up to `endtime`? -/
def inWindow (timestamp endtime : UInt64) : Bool :=
  timestamp ≤ endtime && endtime - 100 < timestamp

/-- The `for` loop over `start`, for at most the given number of rounds. -/
def walkRing (item : VehicleSnapshotItem F) (endtime : UInt64) : ℕ → ℕ → Option (VehicleInfo F)
  | 0, _ => none
  | fuel + 1, start =>
      if start = item.index then none
      else if inWindow (item.snapshot start).package.timestamp endtime then
        some (item.snapshot start).vehicleInfo
      else
        walkRing item endtime fuel
          ((start + vehicleSnapshotHistoryMax - 1) % vehicleSnapshotHistoryMax)

/-- The body of the loops over the vehicles of a junction: what it adds to the package. -/
def vehFrame (item : VehicleSnapshotItem F) (endtime : UInt64) : Option (VehicleInfo F) :=
  if vehicleSnapshotHistoryMax ≤ item.index then none
  else
    let timestamp := (item.snapshot item.index).package.timestamp
    if timestamp < endtime - 100 then none
    else if timestamp < endtime then some (item.snapshot item.index).vehicleInfo
    else
      walkRing item endtime vehicleSnapshotHistoryMax
        ((item.index + vehicleSnapshotHistoryMax - 1) % vehicleSnapshotHistoryMax)

/-- `generate_veh_frame(item, pkg, endtime)`; a package is its list of vehicles. -/
def generateVehFrame (item : DeviceJunctionItem F) (pkg : List (VehicleInfo F))
    (endtime : UInt64) : List (VehicleInfo F) :=
  if endtime = 0 then pkg
  else pkg ++ item.vehList.filterMap (vehFrame · endtime) ++
    item.vehPrevList.filterMap (vehFrame · endtime)

/-! ## What the slots hold -/

section Stores

variable [Zero F]

/-- The slots hold `history`, newest first, and nothing else. -/
structure Stores (item : VehicleSnapshotItem F) (history : List (VehicleSnapshot F)) : Prop where
  index_lt : item.index < vehicleSnapshotHistoryMax
  length_le : history.length ≤ vehicleSnapshotHistoryMax
  slot : ∀ k, k < vehicleSnapshotHistoryMax →
    item.snapshot ((item.index + vehicleSnapshotHistoryMax - k) % vehicleSnapshotHistoryMax) =
      history[k]?.getD .clear

variable {item : VehicleSnapshotItem F} {history : List (VehicleSnapshot F)}

/-- The first snapshot of a vehicle. -/
theorem stores_updateSnapshot_none (vincode : String) (package : VsnapshotPackage F) :
    Stores (updateSnapshot vincode none package) [⟨vincode, package⟩] where
  index_lt := Nat.zero_lt_succ _
  length_le := Nat.le_add_left 1 19
  slot k hk := by
    simp only [updateSnapshot, nextSlot]
    cases k with
    | zero => rfl
    | succ k =>
        have hne : (0 + vehicleSnapshotHistoryMax - (k + 1)) % vehicleSnapshotHistoryMax ≠ 0 := by
          rw [vehicleSnapshotHistoryMax] at hk ⊢
          omega
        rw [Function.update_of_ne hne]
        rfl

/-- A further snapshot takes the slot of the oldest one. -/
theorem stores_updateSnapshot_some (h : Stores item history) (vincode : String)
    (package : VsnapshotPackage F) :
    Stores (updateSnapshot vincode (some item) package)
      ((⟨vincode, package⟩ :: history).take vehicleSnapshotHistoryMax) where
  index_lt := Nat.mod_lt _ (Nat.zero_lt_succ _)
  length_le := List.length_take_le ..
  slot k hk := by
    have hidx := h.index_lt
    simp only [updateSnapshot, nextSlot]
    rw [List.getElem?_take_of_lt hk]
    cases k with
    | zero =>
        have hback : ((item.index + 1) % vehicleSnapshotHistoryMax + vehicleSnapshotHistoryMax - 0) %
            vehicleSnapshotHistoryMax = (item.index + 1) % vehicleSnapshotHistoryMax := by
          rw [Nat.sub_zero, Nat.add_mod_right, Nat.mod_mod]
        rw [hback, Function.update_self]
        rfl
    | succ k =>
        rw [vehicleSnapshotHistoryMax] at hidx hk
        have hslot := h.slot k (by rw [vehicleSnapshotHistoryMax]; omega)
        rw [Function.update_of_ne (by rw [vehicleSnapshotHistoryMax]; omega),
          List.getElem?_cons_succ, ← hslot]
        congr 1
        rw [vehicleSnapshotHistoryMax]
        omega

end Stores

end V2I.VehFrame
