import Mathlib.Algebra.Order.BigOperators.Group.List
import V2I.Snapshot.JunctionLists

/-!
# V2I.Snapshot.JunctionLists.Kept

Which runs keep the vehicle lists of the junctions. `check_create_device_item` initialises
`veh_list` for every new device, not once for the junction, and `remove_snapshot` deletes an
item without taking it out of its list. The lists are what the vehicles made of them as long
as a junction is created together with a first device, a further device comes while no
vehicle is there, and a vehicle is removed only when it is at no junction.
-/

namespace V2I.JunctionLists

open ListHeap List Option Function StdMap

variable {F : Type}

/-! ## Runs -/

/-- The program's state, and what it does not keep: where each vehicle was last added to,
none when it was taken out or removed since. -/
structure World (F : Type) where
  snapshots : Snapshots F
  lastAdded : Bytes → Option Bytes

/-- Nothing has reported. -/
def World.new : World F := ⟨.new, fun _ => none⟩

/-- The calls: a vehicle or the devices of a junction report, a vehicle is removed. -/
inductive Event (F : Type) where
  | vehicle (new : Allocator) (vincode recTime : Bytes) (gps : Option (PositioningSystemInfo F))
  | remove (vid : Bytes)
  | device (new : Allocator) (vincode recTime : Bytes) (junpkg : Option (List RadarVisionInfo))

/-- Where an accepted report of a vehicle takes it. -/
def nextAdded [Double F] (map : Map F) (w : World F) (vincode : Bytes)
    (gps : Option (PositioningSystemInfo F)) : Bytes → Option Bytes :=
  if vincode.length = 0 then w.lastAdded
  else
    match gps with
    | none => w.lastAdded
    | some gps => update w.lastAdded vincode (junctionOf map w.snapshots gps).join

def step [Double F] (map : Map F) (w : World F) : Event F → Option (World F × Reply)
  | .vehicle new vincode recTime gps =>
      (vehicleUpdateSnapshot map w.snapshots new vincode recTime gps).map fun p =>
        (⟨p.1, nextAdded map w vincode gps⟩, p.2)
  | .remove vid =>
      let p := removeSnapshot w.snapshots vid
      some (⟨p.1, update w.lastAdded vid none⟩, p.2)
  | .device new vincode recTime junpkg =>
      (deviceUpdateSnapshot w.snapshots new vincode recTime junpkg).map fun p =>
        ({ w with snapshots := p.1 }, p.2)

/-- The lists are right: `veh_list` of each junction is a circular list of the nodes of
vehicle items, of those that were last added to it. -/
def World.Kept (w : World F) : Prop :=
  ∀ j item, w.snapshots.junctions.find j = some item →
    ∃ l : List ℕ, w.snapshots.heap.Ring (.vehList item.addr) (l.map .junctionownerlist) ∧
      (∀ a ∈ l, ∃ v vitem, w.snapshots.vehicles.find v = some vitem ∧ vitem.addr = a) ∧
      ∀ v vitem, w.snapshots.vehicles.find v = some vitem →
        (vitem.addr ∈ l ↔ w.lastAdded v = some j)

/-- Does the loop over the devices of a package come to one that is new? It stops at a report
that is not newer than the last one of its device. -/
def bringsDevice : List RadarVisionInfo → StdMap Bytes DeviceInfo → Bool
  | [], _ => false
  | rinfo :: rest, deviceTree =>
      match deviceTree.find (toString rinfo.id.toNat) with
      | none => true
      | some info =>
          match addDeviceInfo info rinfo with
          | .error _ => false
          | .ok info => bringsDevice rest (deviceTree.set (toString rinfo.id.toNat) info)

/-- A junction comes with a device, a further device comes while no vehicle is there, and a
vehicle is removed when it is at no junction. -/
def Meets (w : World F) : Event F → Prop
  | .vehicle .. => True
  | .remove vid => ∀ item, w.snapshots.vehicles.find vid = some item →
      w.snapshots.heap.isEmpty (.junctionownerlist item.addr) = some true
  | .device _ vincode _ junpkg => ∀ radarInfo, vincode ≠ [] → junpkg = some radarInfo →
      (w.snapshots.junctions.find vincode = none → radarInfo ≠ []) ∧
      ∀ item, w.snapshots.junctions.find vincode = some item →
        bringsDevice radarInfo item.deviceTree = true →
        w.snapshots.heap.isEmpty (.vehList item.addr) = some true

/-! ## The invariant -/

/-- The rings `R` of the memory are the lists `L` of the junctions, by the addresses of the
vehicle items, and the nodes of the vehicles that are in none. -/
structure Lists (heap : ListHeap Node) (vehicles : StdMap Bytes (VehicleSnapshotItem F))
    (junctions : StdMap Bytes DeviceJunctionItem) (lastAdded : Bytes → Option Bytes)
    (L : Bytes → List ℕ) (R : Node → Option (List Node)) : Prop where
  rings : heap.Rings R
  vehList : ∀ j item, junctions.find j = some item →
    R (.vehList item.addr) = some ((L j).map .junctionownerlist)
  vehPrevList : ∀ j item, junctions.find j = some item →
    R (.vehPrevList item.addr) = some []
  alone : ∀ v item, vehicles.find v = some item → lastAdded v = none →
    R (.junctionownerlist item.addr) = some []
  prevAlone : ∀ v item, vehicles.find v = some item →
    R (.junprevownerlist item.addr) = some []
  mem : ∀ j a, a ∈ L j ↔ ∃ v item, vehicles.find v = some item ∧ item.addr = a ∧
    lastAdded v = some j
  known : ∀ v j, lastAdded v = some j →
    (∃ item, junctions.find j = some item) ∧
    ∃ item, vehicles.find v = some item
  junctionAddr : ∀ j j' item item', junctions.find j = some item →
    junctions.find j' = some item' → item.addr = item'.addr → j = j'
  vehicleAddr : ∀ v v' item item', vehicles.find v = some item →
    vehicles.find v' = some item' → item.addr = item'.addr → v = v'
  liveJunction : ∀ a, heap.live (.vehList a) ∨ heap.live (.vehPrevList a) →
    ∃ j item, junctions.find j = some item ∧ item.addr = a
  liveVehicle : ∀ a, heap.live (.junctionownerlist a) ∨
    heap.live (.junprevownerlist a) →
    ∃ v item, vehicles.find v = some item ∧ item.addr = a

variable {heap : ListHeap Node} {vehicles : StdMap Bytes (VehicleSnapshotItem F)}
  {junctions : StdMap Bytes DeviceJunctionItem} {lastAdded : Bytes → Option Bytes}
  {L : Bytes → List ℕ} {R : Node → Option (List Node)} {v j : Bytes}

theorem lists_new : Lists (F := F) .empty .empty .empty (fun _ => none) (fun _ => []) fun _ => none := by
  constructor
  · exact Rings.empty
  all_goals simp [find_empty, ListHeap.empty]

/-- **The invariant gives the property.** -/
theorem Lists.kept {w : World F} (hw : Lists w.snapshots.heap w.snapshots.vehicles
    w.snapshots.junctions w.lastAdded L R) : w.Kept := by
  intro j item hitem
  refine ⟨L j, hw.rings.ring _ _ (hw.vehList j item hitem), fun a ha => ?_, fun v vitem hv => ?_⟩
  · obtain ⟨v, vitem, hv, haddr, -⟩ := (hw.mem j a).mp ha
    exact ⟨v, vitem, hv, haddr⟩
  · rw [hw.mem]
    constructor
    · rintro ⟨v', vitem', hv', haddr, hlast⟩
      rwa [hw.vehicleAddr v v' vitem vitem' hv hv' haddr.symm]
    · intro hlast
      exact ⟨v, vitem, hv, rfl, hlast⟩

/-! ## Reports of vehicles -/

variable {item : VehicleSnapshotItem F}

/-- Changes of an item that leave it where it is. -/
theorem Lists.setVehicle (hw : Lists heap vehicles junctions lastAdded L R)
    {item' : VehicleSnapshotItem F} (hitem : vehicles.find v = some item)
    (haddr : item'.addr = item.addr) :
    Lists heap (vehicles.set v item') junctions lastAdded L R := by
  have hfind : ∀ v' it', (vehicles.set v item').find v' = some it' →
      ∃ it, vehicles.find v' = some it ∧ it.addr = it'.addr := by
    intro v' it' h
    rw [find_set] at h
    split_ifs at h with heq
    · cases h
      exact ⟨item, heq ▸ hitem, haddr.symm⟩
    · exact ⟨it', h, rfl⟩
  have hback : ∀ v' it, vehicles.find v' = some it →
      ∃ it', (vehicles.set v item').find v' = some it' ∧ it'.addr = it.addr := by
    intro v' it h
    rw [find_set]
    split_ifs with heq
    · rw [heq, hitem] at h
      cases h
      exact ⟨item', rfl, haddr⟩
    · exact ⟨it, h, rfl⟩
  refine { hw with alone := ?_, prevAlone := ?_, mem := ?_, known := ?_, vehicleAddr := ?_, liveVehicle := ?_ }
  · intro v' it' h hlast
    obtain ⟨it, hit, heq⟩ := hfind v' it' h
    exact heq ▸ hw.alone v' it hit hlast
  · intro v' it' h
    obtain ⟨it, hit, heq⟩ := hfind v' it' h
    exact heq ▸ hw.prevAlone v' it hit
  · intro j a
    rw [hw.mem]
    constructor
    · rintro ⟨v', it, hit, ha, hlast⟩
      obtain ⟨it', hit', heq⟩ := hback v' it hit
      exact ⟨v', it', hit', heq.trans ha, hlast⟩
    · rintro ⟨v', it', hit', ha, hlast⟩
      obtain ⟨it, hit, heq⟩ := hfind v' it' hit'
      exact ⟨v', it, hit, heq.trans ha, hlast⟩
  · intro v' j hlast
    obtain ⟨hj, it, hit⟩ := hw.known v' j hlast
    obtain ⟨it', hit', -⟩ := hback v' it hit
    exact ⟨hj, it', hit'⟩
  · intro v₁ v₂ it₁ it₂ h₁ h₂ heq
    obtain ⟨it₁', hit₁, heq₁⟩ := hfind v₁ it₁ h₁
    obtain ⟨it₂', hit₂, heq₂⟩ := hfind v₂ it₂ h₂
    exact hw.vehicleAddr v₁ v₂ it₁' it₂' hit₁ hit₂ (by rw [heq₁, heq₂, heq])
  · intro a ha
    obtain ⟨v', it, hit, heq⟩ := hw.liveVehicle a ha
    obtain ⟨it', hit', heq'⟩ := hback v' it hit
    exact ⟨v', it', hit', heq'.trans heq⟩

theorem mem_vehicleAddrs {s : Snapshots F} {a : ℕ} :
    a ∈ s.vehicleAddrs ↔ ∃ v item, s.vehicles.find v = some item ∧ item.addr = a := by
  simp [Snapshots.vehicleAddrs, find_eq_some_iff]

theorem mem_junctionAddrs {s : Snapshots F} {a : ℕ} :
    a ∈ s.junctionAddrs ↔ ∃ j item, s.junctions.find j = some item ∧ item.addr = a := by
  simp [Snapshots.junctionAddrs, find_eq_some_iff]

/-- **A new vehicle** is at no junction. -/
theorem Lists.newVehicle (hw : Lists heap vehicles junctions lastAdded L R)
    (hv : vehicles.find v = none) (hnot : ∀ v' it, vehicles.find v' = some it → it.addr ≠ item.addr)
    : ∃ h₁ h₂ R', ((heap.alloc (.junctionownerlist item.addr)).alloc
        (.junprevownerlist item.addr)).init (.junctionownerlist item.addr) = some h₁ ∧
      h₁.init (.junprevownerlist item.addr) = some h₂ ∧
      Lists h₂ (vehicles.set v item) junctions lastAdded L R' := by
  have hne : ∀ v' it, vehicles.find v' = some it → v' ≠ v := by
    rintro v' it hit rfl
    rw [hv] at hit
    cases hit
  have hfind : ∀ v' it', (vehicles.set v item).find v' = some it' ↔
      (v' = v ∧ it' = item) ∨ vehicles.find v' = some it' := by
    intro v' it'
    rw [find_set]
    split_ifs with heq
    · subst heq
      simp [hv, eq_comm]
    · simp [heq]
  obtain ⟨h₁, h₂, hinit₁, hinit₂, hR⟩ := hw.rings.init_alloc₂
    (x := .junctionownerlist item.addr) (n := .junprevownerlist item.addr)
    (fun hlive => by
      obtain ⟨v', it, hit, heq⟩ := hw.liveVehicle _ (.inl hlive)
      exact hnot v' it hit heq)
    (fun hlive => by
      obtain ⟨v', it, hit, heq⟩ := hw.liveVehicle _ (.inr hlive)
      exact hnot v' it hit heq) (by simp)
  have hlive : h₂.live = update (update heap.live
      (.junctionownerlist item.addr) true) (.junprevownerlist item.addr) true := by
    rw [live_init hinit₂, live_init hinit₁]
    rfl
  have hlast : lastAdded v = none := by
    by_contra hsome
    obtain ⟨j, hj⟩ := ne_none_iff_exists'.mp hsome
    obtain ⟨-, it, hit⟩ := hw.known v j hj
    exact hne v it hit rfl
  refine ⟨h₁, h₂, _, hinit₁, hinit₂, hR, ?_, ?_, ?_, ?_, ?_, ?_, hw.junctionAddr, ?_, ?_, ?_⟩
  · intro j jitem hj
    simpa using hw.vehList j jitem hj
  · intro j jitem hj
    simpa using hw.vehPrevList j jitem hj
  · intro v' it hit hlast'
    rcases (hfind v' it).mp hit with ⟨-, rfl⟩ | hit
    · simp
    · simpa [hnot v' it hit] using hw.alone v' it hit hlast'
  · intro v' it hit
    rcases (hfind v' it).mp hit with ⟨-, rfl⟩ | hit
    · simp
    · simpa [hnot v' it hit] using hw.prevAlone v' it hit
  · intro j a
    simp only [hw.mem, hfind]
    constructor
    · rintro ⟨v', it, hit, ha, hlast'⟩
      exact ⟨v', it, .inr hit, ha, hlast'⟩
    · rintro ⟨v', it, ⟨rfl, rfl⟩ | hit, ha, hlast'⟩
      · rw [hlast] at hlast'
        cases hlast'
      · exact ⟨v', it, hit, ha, hlast'⟩
  · intro v' j hlast'
    obtain ⟨hj, it, hit⟩ := hw.known v' j hlast'
    exact ⟨hj, it, (hfind v' it).mpr (.inr hit)⟩
  · intro v₁ v₂ it₁ it₂ hit₁ hit₂ heq
    rcases (hfind v₁ it₁).mp hit₁ with ⟨rfl, rfl⟩ | hold₁ <;>
      rcases (hfind v₂ it₂).mp hit₂ with ⟨rfl, rfl⟩ | hold₂
    · rfl
    · exact absurd heq.symm (hnot v₂ it₂ hold₂)
    · exact absurd heq (hnot v₁ it₁ hold₁)
    · exact hw.vehicleAddr v₁ v₂ it₁ it₂ hold₁ hold₂ heq
  · intro a ha
    refine hw.liveJunction a ?_
    simpa [hlive] using ha
  · intro a ha
    by_cases haddr' : item.addr = a
    · exact ⟨v, item, (hfind v item).mpr (.inl ⟨rfl, rfl⟩), haddr'⟩
    · obtain ⟨v', it, hit, heq⟩ := hw.liveVehicle a (by simpa [hlive, Ne.symm haddr'] using ha)
      exact ⟨v', it, (hfind v' it).mpr (.inr hit), heq⟩

variable {jitem : DeviceJunctionItem}

/-- A junction's list is replaced in its ring. -/
theorem Lists.vehList_update (hw : Lists heap vehicles junctions lastAdded L R)
    (hj : junctions.find j = some jitem) (l : List ℕ) {j' : Bytes} {jitem' : DeviceJunctionItem}
    (hj' : junctions.find j' = some jitem') :
    update R (.vehList jitem.addr) (some (l.map .junctionownerlist))
        (.vehList jitem'.addr) =
      some ((update L j l j').map .junctionownerlist) := by
  by_cases heq : j' = j
  · subst heq
    rw [hj] at hj'
    cases hj'
    simp
  · have haddr : jitem'.addr ≠ jitem.addr :=
      fun haddr => heq (hw.junctionAddr j' j jitem' jitem hj' hj haddr)
    simpa [heq, haddr] using hw.vehList j' jitem' hj'

/-- The lists without a vehicle that leaves. -/
theorem Lists.mem_leave (hw : Lists heap vehicles junctions lastAdded L R)
    (hitem : vehicles.find v = some item) (hlast : lastAdded v = some j) {l₁ l₂ : List ℕ}
    (hl : L j = l₁ ++ item.addr :: l₂) (hout : item.addr ∉ l₁ ++ l₂) {j' : Bytes} {a : ℕ} :
    a ∈ update L j (l₁ ++ l₂) j' ↔ ∃ v' item', vehicles.find v' = some item' ∧
      item'.addr = a ∧ update lastAdded v none v' = some j' := by
  have hmem : a ∈ update L j (l₁ ++ l₂) j' ↔ a ∈ L j' ∧ a ≠ item.addr := by
    by_cases heq : j' = j
    · subst heq
      rw [update_self, hl]
      grind
    · rw [update_of_ne heq]
      refine (and_iff_left_of_imp fun ha => ?_).symm
      rintro rfl
      obtain ⟨v', item', hitem', haddr, hlast'⟩ := (hw.mem j' _).mp ha
      rw [hw.vehicleAddr v' v item' item hitem' hitem haddr, hlast] at hlast'
      exact heq (some_inj.mp hlast').symm
  rw [hmem]
  constructor
  · rintro ⟨ha, hne⟩
    obtain ⟨v', item', hitem', haddr, hlast'⟩ := (hw.mem j' a).mp ha
    refine ⟨v', item', hitem', haddr, ?_⟩
    have hv : v' ≠ v := by
      rintro rfl
      rw [hitem] at hitem'
      cases hitem'
      exact hne haddr.symm
    rwa [update_of_ne hv]
  · rintro ⟨v', item', hitem', haddr, hlast'⟩
    have hv : v' ≠ v := by
      rintro rfl
      rw [update_self] at hlast'
      cases hlast'
    rw [update_of_ne hv] at hlast'
    refine ⟨(hw.mem j' a).mpr ⟨v', item', hitem', haddr, hlast'⟩, fun ha => ?_⟩
    exact hv (hw.vehicleAddr v' v item' item hitem' hitem (haddr.trans ha))

/-- **Leaving**: a vehicle is taken out of the list it is in, if any. -/
theorem Lists.del (hw : Lists heap vehicles junctions lastAdded L R)
    (hitem : vehicles.find v = some item) :
    ∃ h' L' R', heap.del (.junctionownerlist item.addr) = some h' ∧
      Lists h' vehicles junctions (update lastAdded v none) L' R' := by
  cases hlast : lastAdded v with
  | none =>
      refine ⟨_, L, R, hw.rings.del_nil (hw.alone v item hitem hlast), ?_⟩
      rw [update_eq_self_iff.mpr hlast.symm]
      exact hw
  | some j =>
      obtain ⟨⟨jitem, hj⟩, -⟩ := hw.known v j hlast
      have hring := hw.vehList j jitem hj
      obtain ⟨l₁, l₂, hl⟩ := append_of_mem
        ((hw.mem j item.addr).mpr ⟨v, item, hitem, rfl, hlast⟩)
      have hnodup : (L j).Nodup := by
        have := (hw.rings.ring _ _ hring).nodup
        exact (nodup_cons.mp this).2.of_map
      rw [hl, map_append, map_cons] at hring
      obtain ⟨h', hdel, hlive, hR⟩ := hw.rings.del hring
      have hout : item.addr ∉ l₁ ++ l₂ := by
        rw [hl, nodup_middle] at hnodup
        exact (nodup_cons.mp hnodup).1
      refine ⟨h', update L j (l₁ ++ l₂), _, hdel, hR, ?_, ?_, ?_, ?_,
        fun j' a => hw.mem_leave hitem hlast hl hout, ?_, hw.junctionAddr, hw.vehicleAddr,
        fun a ha => hw.liveJunction a (hlive ▸ ha), fun a ha => hw.liveVehicle a (hlive ▸ ha)⟩
      · intro j' jitem' hj'
        simpa using hw.vehList_update hj (l₁ ++ l₂) hj'
      · intro j' jitem' hj'
        simpa using hw.vehPrevList j' jitem' hj'
      · intro v' item' hitem' hlast'
        by_cases haddr : item'.addr = item.addr
        · simp [haddr]
        · have heq : v' ≠ v := by
            rintro rfl
            rw [hitem] at hitem'
            cases hitem'
            exact haddr rfl
          rw [update_of_ne heq] at hlast'
          simpa [haddr] using hw.alone v' item' hitem' hlast'
      · intro v' item' hitem'
        simpa using hw.prevAlone v' item' hitem'
      · intro v' j' hlast'
        by_cases hne : v' = v
        · rw [hne, update_self] at hlast'
          cases hlast'
        · rw [update_of_ne hne] at hlast'
          exact hw.known v' j' hlast'

/-- **Entering** the list of a junction. -/
theorem Lists.add (hw : Lists heap vehicles junctions lastAdded L R)
    (hitem : vehicles.find v = some item) (hj : junctions.find j = some jitem)
    (hlast : lastAdded v = none) :
    ∃ h' R', heap.add (.vehList jitem.addr) (.junctionownerlist item.addr) = some h' ∧
      Lists h' vehicles junctions (update lastAdded v (some j))
        (update L j (L j ++ [item.addr])) R' := by
  obtain ⟨h', hadd, hlive, hR⟩ := hw.rings.add (hw.vehList j jitem hj)
    (hw.alone v item hitem hlast) (by simp)
  refine ⟨h', _, hadd, hR, ?_, ?_, ?_, ?_, ?_, ?_,
    hw.junctionAddr, hw.vehicleAddr, fun a ha => hw.liveJunction a (hlive ▸ ha),
    fun a ha => hw.liveVehicle a (hlive ▸ ha)⟩
  · intro j' jitem' hj'
    rw [update_comm (by simp), update_of_ne (by simp)]
    simpa using hw.vehList_update hj (L j ++ [item.addr]) hj'
  · intro j' jitem' hj'
    simpa using hw.vehPrevList j' jitem' hj'
  · intro v' item' hitem' hlast'
    have hne : v' ≠ v := by
      rintro rfl
      rw [update_self] at hlast'
      cases hlast'
    rw [update_of_ne hne] at hlast'
    have haddr : item'.addr ≠ item.addr :=
      fun haddr => hne (hw.vehicleAddr v' v item' item hitem' hitem haddr)
    simpa [haddr] using hw.alone v' item' hitem' hlast'
  · intro v' item' hitem'
    simpa using hw.prevAlone v' item' hitem'
  · intro j' a
    have hold : a ∈ update L j (L j ++ [item.addr]) j' ↔
        a ∈ L j' ∨ j' = j ∧ a = item.addr := by
      by_cases heq : j' = j
      · subst heq
        simp
      · simp [heq]
    rw [hold, hw.mem]
    constructor
    · rintro (⟨v', item', hitem', haddr, hlast'⟩ | ⟨rfl, rfl⟩)
      · have hne : v' ≠ v := by
          rintro rfl
          rw [hlast] at hlast'
          cases hlast'
        exact ⟨v', item', hitem', haddr, by rwa [update_of_ne hne]⟩
      · exact ⟨v, item, hitem, rfl, by rw [update_self]⟩
    · rintro ⟨v', item', hitem', haddr, hlast'⟩
      by_cases hne : v' = v
      · subst hne
        rw [update_self, some_inj] at hlast'
        rw [hitem] at hitem'
        cases hitem'
        exact .inr ⟨hlast'.symm, haddr.symm⟩
      · rw [update_of_ne hne] at hlast'
        exact .inl ⟨v', item', hitem', haddr, hlast'⟩
  · intro v' j' hlast'
    by_cases hne : v' = v
    · subst hne
      rw [update_self, some_inj] at hlast'
      subst hlast'
      exact ⟨⟨jitem, hj⟩, item, hitem⟩
    · rw [update_of_ne hne] at hlast'
      exact hw.known v' j' hlast'

section Vehicles

variable [Double F] {map : Map F} {s s' : Snapshots F} {item : VehicleSnapshotItem F}
  {gps : PositioningSystemInfo F} {new : Allocator} {vincode recTime : Bytes}

/-- The item of a reporting vehicle is in the table from here on. -/
theorem checkCreateVehicleItem_lists (hs : Lists s.heap s.vehicles s.junctions lastAdded L R)
    (h : checkCreateVehicleItem s new vincode = some (s', item)) (item' : VehicleSnapshotItem F)
    (haddr : item'.addr = item.addr) : s'.junctions = s.junctions ∧
      ∃ R', Lists s'.heap (s'.vehicles.set vincode item') s'.junctions lastAdded L R' := by
  unfold checkCreateVehicleItem at h
  split at h
  · next old hold =>
      cases h
      exact ⟨rfl, R, hs.setVehicle hold haddr⟩
  · next hnone =>
      obtain ⟨h₁, hinit₁, h⟩ := bind_eq_some_iff.mp h
      obtain ⟨h₂, hinit₂, h⟩ := bind_eq_some_iff.mp h
      cases h
      obtain ⟨h₁', h₂', R', hinit₁', hinit₂', hlists⟩ := hs.newVehicle hnone
        fun v it hit heq => new.addr_notMem _ (mem_vehicleAddrs.mpr ⟨v, it, hit, heq.trans haddr⟩)
      rw [haddr] at hinit₁' hinit₂'
      obtain rfl : h₁ = h₁' := some_inj.mp (hinit₁.symm.trans hinit₁')
      obtain rfl : h₂ = h₂' := some_inj.mp (hinit₂.symm.trans hinit₂')
      exact ⟨rfl, R', hlists⟩

theorem junctionOf_congr (h : s'.junctions = s.junctions) :
    junctionOf map s' gps = junctionOf map s gps := by
  simp only [junctionOf, h]

/-- A vehicle is taken to a junction that has reported. -/
theorem find_of_junctionOf (h : junctionOf map s gps = some (some j)) :
    ∃ jitem, s.junctions.find j = some jitem := by
  unfold junctionOf at h
  grind

/-- **Moving**: a vehicle leaves its list for that of the junction it is at. -/
theorem updateToJunction_lists {s₁ : Snapshots F} (h : updateToJunction map s₁ item = some s')
    (hs : Lists s₁.heap s₁.vehicles s₁.junctions lastAdded L R) (hj : s₁.junctions = s.junctions)
    (hitem : s₁.vehicles.find v = some item) (hgps : item.snapshot item.index = gps) :
    ∃ L' R', Lists s'.heap s'.vehicles s'.junctions
      (update lastAdded v (junctionOf map s gps).join) L' R' := by
  obtain ⟨heap₁, L₁, R₁, hdel, h₁⟩ := hs.del hitem
  have hprev := h₁.rings.del_nil (h₁.prevAlone v item hitem)
  have hjunction : junctionOf map { s₁ with heap := heap₁ } gps = junctionOf map s gps :=
    junctionOf_congr hj
  simp only [updateToJunction, hdel, hprev, bind_eq_bind, bind_some] at h
  obtain ⟨⟨s₂, r⟩, hadd, h⟩ := bind_eq_some_iff.mp h
  cases h
  unfold addVehicleToJunction at hadd
  rw [hgps, hjunction] at hadd
  split at hadd
  · cases hadd
  · next hnone =>
      cases hadd
      rw [hnone]
      exact ⟨L₁, R₁, h₁⟩
  · next j hsome =>
      obtain ⟨jitem, hjitem⟩ := find_of_junctionOf hsome
      rw [← hj] at hjitem
      obtain ⟨heap₂, R₂, hadd₂, h₂⟩ := h₁.add hitem hjitem (update_self ..)
      simp only [hjitem, hadd₂, bind_eq_bind, bind_some] at hadd
      cases hadd
      rw [update_idem] at h₂
      rw [hsome]
      exact ⟨_, R₂, h₂⟩

/-- **A report of a vehicle.** -/
theorem vehicleUpdateSnapshot_lists {w : World F} {gps : Option (PositioningSystemInfo F)} {r : Reply}
    (hw : Lists w.snapshots.heap w.snapshots.vehicles w.snapshots.junctions w.lastAdded L R)
    (h : vehicleUpdateSnapshot map w.snapshots new vincode recTime gps = some (s', r)) :
    ∃ L' R', Lists s'.heap s'.vehicles s'.junctions (nextAdded map w vincode gps) L' R' := by
  unfold vehicleUpdateSnapshot at h
  unfold nextAdded
  split at h
  · next hlen =>
      cases h
      rw [if_pos hlen]
      exact ⟨L, R, hw⟩
  · next hlen =>
      rw [if_neg hlen]
      cases gps with
      | none =>
          cases h
          exact ⟨L, R, hw⟩
      | some gps =>
          obtain ⟨⟨s₁, item⟩, hcreate, h⟩ := bind_eq_some_iff.mp h
          obtain ⟨_, -, h⟩ := bind_eq_some_iff.mp h
          obtain ⟨s₂, hmove, h⟩ := bind_eq_some_iff.mp h
          cases h
          obtain ⟨hjunctions, R₁, h₁⟩ := checkCreateVehicleItem_lists hw hcreate
            { item with snapshot := update item.snapshot item.index gps } rfl
          exact updateToJunction_lists hmove h₁ hjunctions (by rw [find_set, if_pos rfl])
            (update_self ..)

end Vehicles

/-! ## Reports of devices -/

/-- What a new device does to the lists of its junction. -/
def initLists (heap : ListHeap Node) (junction : ℕ) : Option (ListHeap Node) :=
  (heap.init (.vehList junction)).bind (·.init (.vehPrevList junction))

theorem initLists_spec {heap' : ListHeap Node} {a : ℕ} (h : initLists heap a = some heap') :
    heap'.live = heap.live ∧ heap.live (.vehList a) ∧ heap.live (.vehPrevList a) ∧
      heap'.Ring (.vehList a) [] ∧ heap'.Ring (.vehPrevList a) [] := by
  obtain ⟨heap₁, hinit₁, hinit₂⟩ := bind_eq_some_iff.mp h
  have hlive₁ := live_init hinit₁
  obtain ⟨hn, hp⟩ := Ring.nil_iff.mp (ring_of_init hinit₁)
  obtain ⟨hn', hp'⟩ := init_frame (n := .vehList a) hinit₂ (by simp)
  exact ⟨(live_init hinit₂).trans hlive₁, (init_eq_some hinit₁).1, hlive₁ ▸ (init_eq_some hinit₂).1,
    Ring.nil_iff.mpr ⟨hn'.trans hn, hp'.trans hp⟩, ring_of_init hinit₂⟩

/-- Initialising the lists of a junction without vehicles changes nothing. -/
theorem initLists_of_nil {a : ℕ} (hlive : heap.live (.vehList a)) (hlive' : heap.live (.vehPrevList a))
    (hr : heap.Ring (.vehList a) []) (hr' : heap.Ring (.vehPrevList a) []) :
    initLists heap a = some heap := by
  rw [initLists, init_of_nil hlive hr]
  exact init_of_nil hlive' hr'

variable {item : DeviceJunctionItem} {item' : DeviceJunctionItem}

/-- **The loop over a package** initialises the lists when it comes to a new device, and leaves
them alone otherwise. -/
theorem reportDevices_spec {radarInfo : List RadarVisionInfo} {heap' : ListHeap Node} {r : Reply}
    (h : reportDevices radarInfo heap item = some (heap', item', r)) :
    item'.addr = item.addr ∧
      (bringsDevice radarInfo item.deviceTree = true → initLists heap item.addr = some heap') ∧
      (bringsDevice radarInfo item.deviceTree = false → heap' = heap) := by
  induction radarInfo generalizing heap item with
  | nil =>
      cases h
      exact ⟨rfl, by simp [bringsDevice], fun _ => rfl⟩
  | cons rinfo rest ih =>
      unfold reportDevices at h
      unfold bringsDevice
      cases hfind : item.deviceTree.find (toString rinfo.id.toNat) with
      | some info =>
          simp only [checkCreateDeviceItem, hfind] at h
          cases hadd : addDeviceInfo info rinfo with
          | error e =>
              simp only [hadd] at h
              cases h
              exact ⟨rfl, by simp [hadd], fun _ => rfl⟩
          | ok info' =>
              simp only [hadd] at h
              simpa [hadd] using ih h
      | none =>
          simp only [checkCreateDeviceItem, hfind] at h
          split at h
          · cases h
          · next heap₁ item₁ info hcreate =>
              obtain ⟨h₁, hinit₁, hcreate⟩ := bind_eq_some_iff.mp hcreate
              obtain ⟨h₂, hinit₂, hcreate⟩ := bind_eq_some_iff.mp hcreate
              cases hcreate
              have hinit : initLists heap item.addr = some heap₁ := by
                rw [initLists, hinit₁]
                exact hinit₂
              obtain ⟨hlive, hl, hl', hr, hr'⟩ := initLists_spec hinit
              have hagain : initLists heap₁ item.addr = some heap₁ :=
                initLists_of_nil (hlive ▸ hl) (hlive ▸ hl') hr hr'
              suffices item'.addr = item.addr ∧ heap' = heap₁ from
                ⟨this.1, fun _ => this.2 ▸ hinit, by simp⟩
              split at h
              · cases h
                exact ⟨rfl, rfl⟩
              · obtain ⟨haddr, hnew, hold⟩ := ih h
                refine ⟨haddr, ?_⟩
                cases hrest : bringsDevice rest _ with
                | true => exact some_inj.mp ((hnew hrest).symm.trans hagain)
                | false => exact hold hrest

/-- New devices of a junction leave its item where it is. -/
theorem Lists.setJunction (hw : Lists heap vehicles junctions lastAdded L R)
    (hitem : junctions.find j = some item) (haddr : item'.addr = item.addr) :
    Lists heap vehicles (junctions.set j item') lastAdded L R := by
  have hfind : ∀ j' it', (junctions.set j item').find j' = some it' →
      ∃ it, junctions.find j' = some it ∧ it.addr = it'.addr := by
    intro j' it' h
    rw [find_set] at h
    split_ifs at h with heq
    · cases h
      exact ⟨item, heq ▸ hitem, haddr.symm⟩
    · exact ⟨it', h, rfl⟩
  have hback : ∀ j' it, junctions.find j' = some it →
      ∃ it', (junctions.set j item').find j' = some it' ∧ it'.addr = it.addr := by
    intro j' it h
    rw [find_set]
    split_ifs with heq
    · rw [heq, hitem] at h
      cases h
      exact ⟨item', rfl, haddr⟩
    · exact ⟨it, h, rfl⟩
  refine { hw with vehList := ?_, vehPrevList := ?_, known := ?_, junctionAddr := ?_, liveJunction := ?_ }
  · intro j' it' h
    obtain ⟨it, hit, heq⟩ := hfind j' it' h
    exact heq ▸ hw.vehList j' it hit
  · intro j' it' h
    obtain ⟨it, hit, heq⟩ := hfind j' it' h
    exact heq ▸ hw.vehPrevList j' it hit
  · intro v j' hlast
    obtain ⟨⟨it, hit⟩, hv⟩ := hw.known v j' hlast
    obtain ⟨it', hit', -⟩ := hback j' it hit
    exact ⟨⟨it', hit'⟩, hv⟩
  · intro j₁ j₂ it₁ it₂ h₁ h₂ heq
    obtain ⟨it₁', hit₁, heq₁⟩ := hfind j₁ it₁ h₁
    obtain ⟨it₂', hit₂, heq₂⟩ := hfind j₂ it₂ h₂
    exact hw.junctionAddr j₁ j₂ it₁' it₂' hit₁ hit₂ (by rw [heq₁, heq₂, heq])
  · intro a ha
    obtain ⟨j', it, hit, heq⟩ := hw.liveJunction a ha
    obtain ⟨it', hit', heq'⟩ := hback j' it hit
    exact ⟨j', it', hit', heq'.trans heq⟩

/-- **A new junction** with a first device has no vehicles. -/
theorem Lists.newJunction (hw : Lists heap vehicles junctions lastAdded L R)
    (hj : junctions.find j = none)
    (hnot : ∀ j' it, junctions.find j' = some it → it.addr ≠ item.addr) :
    ∃ heap' R', initLists ((heap.alloc (.vehList item.addr)).alloc (.vehPrevList item.addr))
        item.addr = some heap' ∧
      Lists heap' vehicles (junctions.set j item) lastAdded L R' := by
  have hne : ∀ j' it, junctions.find j' = some it → j' ≠ j := by
    rintro j' it hit rfl
    rw [hj] at hit
    cases hit
  have hfind : ∀ j' it', (junctions.set j item).find j' = some it' ↔
      (j' = j ∧ it' = item) ∨ junctions.find j' = some it' := by
    intro j' it'
    rw [find_set]
    split_ifs with heq
    · subst heq
      simp [hj, eq_comm]
    · simp [heq]
  obtain ⟨h₁, h₂, hinit₁, hinit₂, hR⟩ := hw.rings.init_alloc₂
    (x := .vehList item.addr) (n := .vehPrevList item.addr)
    (fun hlive => by
      obtain ⟨j', it, hit, heq⟩ := hw.liveJunction _ (.inl hlive)
      exact hnot j' it hit heq)
    (fun hlive => by
      obtain ⟨j', it, hit, heq⟩ := hw.liveJunction _ (.inr hlive)
      exact hnot j' it hit heq) (by simp)
  have hlive : h₂.live = update (update heap.live
      (.vehList item.addr) true) (.vehPrevList item.addr) true := by
    rw [live_init hinit₂, live_init hinit₁]
    rfl
  have hempty : L j = [] := by
    refine eq_nil_iff_forall_not_mem.mpr fun a ha => ?_
    obtain ⟨v, it, -, -, hlast⟩ := (hw.mem j a).mp ha
    obtain ⟨⟨jitem, hjitem⟩, -⟩ := hw.known v j hlast
    exact hne j jitem hjitem rfl
  refine ⟨h₂, _, by rw [initLists, hinit₁]; exact hinit₂, hR, ?_, ?_, ?_, ?_, hw.mem, ?_, ?_,
    hw.vehicleAddr, ?_, ?_⟩
  · intro j' it hit
    rcases (hfind j' it).mp hit with ⟨rfl, rfl⟩ | hit
    · simp [hempty]
    · simpa [hnot j' it hit] using hw.vehList j' it hit
  · intro j' it hit
    rcases (hfind j' it).mp hit with ⟨-, rfl⟩ | hit
    · simp
    · simpa [hnot j' it hit] using hw.vehPrevList j' it hit
  · intro v it hit hlast
    simpa using hw.alone v it hit hlast
  · intro v it hit
    simpa using hw.prevAlone v it hit
  · intro v j' hlast
    obtain ⟨⟨it, hit⟩, hv⟩ := hw.known v j' hlast
    exact ⟨⟨it, (hfind j' it).mpr (.inr hit)⟩, hv⟩
  · intro j₁ j₂ it₁ it₂ hit₁ hit₂ heq
    rcases (hfind j₁ it₁).mp hit₁ with ⟨rfl, rfl⟩ | hold₁ <;>
      rcases (hfind j₂ it₂).mp hit₂ with ⟨rfl, rfl⟩ | hold₂
    · rfl
    · exact absurd heq.symm (hnot j₂ it₂ hold₂)
    · exact absurd heq (hnot j₁ it₁ hold₁)
    · exact hw.junctionAddr j₁ j₂ it₁ it₂ hold₁ hold₂ heq
  · intro a ha
    by_cases haddr' : item.addr = a
    · exact ⟨j, item, (hfind j item).mpr (.inl ⟨rfl, rfl⟩), haddr'⟩
    · obtain ⟨j', it, hit, heq⟩ := hw.liveJunction a (by simpa [hlive, Ne.symm haddr'] using ha)
      exact ⟨j', it, (hfind j' it).mpr (.inr hit), heq⟩
  · intro a ha
    refine hw.liveVehicle a ?_
    simpa [hlive] using ha

section Devices

variable {s s' : Snapshots F} {new : Allocator} {vincode recTime : Bytes}
  {junpkg : Option (List RadarVisionInfo)} {r : Reply}

/-- An accepted report of devices: the loop runs over the package for the item of the
junction, which is in the table or new. -/
theorem deviceUpdateSnapshot_eq_some
    (h : deviceUpdateSnapshot s new vincode recTime junpkg = some (s', r)) :
    (s' = s ∧ (vincode = [] ∨ junpkg = none)) ∨
      ∃ radarInfo s₁ item heap item', junpkg = some radarInfo ∧ vincode ≠ [] ∧
        checkCreateJunctionItem s new vincode = some (s₁, item) ∧
        reportDevices radarInfo s₁.heap item = some (heap, item', r) ∧
        s' = { s₁ with heap, junctions := s₁.junctions.set vincode item' } := by
  unfold deviceUpdateSnapshot at h
  split at h
  · next hlen =>
      cases h
      exact .inl ⟨rfl, .inl (length_eq_zero_iff.mp hlen)⟩
  · next hlen =>
      cases junpkg with
      | none =>
          cases h
          exact .inl ⟨rfl, .inr rfl⟩
      | some radarInfo =>
          obtain ⟨⟨s₁, item⟩, hcreate, h⟩ := bind_eq_some_iff.mp h
          obtain ⟨_, -, h⟩ := bind_eq_some_iff.mp h
          obtain ⟨⟨heap, item', ret⟩, hreport, h⟩ := bind_eq_some_iff.mp h
          cases h
          exact .inr ⟨radarInfo, s₁, item, heap, item', rfl, fun heq => hlen (by simp [heq]), hcreate,
            hreport, rfl⟩

theorem checkCreateJunctionItem_eq_some {s₁ : Snapshots F}
    (h : checkCreateJunctionItem s new vincode = some (s₁, item)) :
    (s.junctions.find vincode = some item ∧ s₁ = s) ∨
      (s.junctions.find vincode = none ∧ item.addr ∉ s.junctionAddrs ∧ item.deviceTree = .empty ∧
        s₁ = { s with
          heap := (s.heap.alloc (.vehList item.addr)).alloc (.vehPrevList item.addr)
          junctions := s.junctions.set vincode item }) := by
  unfold checkCreateJunctionItem at h
  split at h
  · next item hitem =>
      cases h
      exact .inl ⟨hitem, rfl⟩
  · next hnone =>
      split at h
      · cases h
      · cases h
        exact .inr ⟨hnone, new.addr_notMem _, rfl, rfl⟩

theorem bringsDevice_empty (radarInfo : List RadarVisionInfo) :
    bringsDevice radarInfo .empty = true ↔ radarInfo ≠ [] := by
  cases radarInfo with
  | nil => simp [bringsDevice]
  | cons rinfo rest => simp [bringsDevice, find_empty]

/-- **A report of devices** that meets the condition. -/
theorem deviceUpdateSnapshot_lists {w : World F}
    (hw : Lists w.snapshots.heap w.snapshots.vehicles w.snapshots.junctions w.lastAdded L R)
    (h : deviceUpdateSnapshot w.snapshots new vincode recTime junpkg = some (s', r))
    (hmeets : Meets w (.device new vincode recTime junpkg)) :
    ∃ R', Lists s'.heap s'.vehicles s'.junctions w.lastAdded L R' := by
  obtain ⟨rfl, -⟩ | ⟨radarInfo, s₁, item, heap, item', rfl, hne, hcreate, hreport, rfl⟩ :=
    deviceUpdateSnapshot_eq_some h
  · exact ⟨R, hw⟩
  obtain ⟨haddr, hnew, hold⟩ := reportDevices_spec hreport
  obtain ⟨hfirst, hmore⟩ := hmeets radarInfo hne rfl
  obtain ⟨hitem, rfl⟩ | ⟨hnone, hfresh, htree, rfl⟩ := checkCreateJunctionItem_eq_some hcreate
  · refine ⟨R, ?_⟩
    suffices heap = w.snapshots.heap from this ▸ hw.setJunction hitem haddr
    cases hbrings : bringsDevice radarInfo item.deviceTree with
    | false => exact hold hbrings
    | true =>
        have hempty := (hw.rings.isEmpty_iff (hw.vehList vincode item hitem)).mp
          (hmore item hitem hbrings)
        obtain ⟨hlive, hr⟩ := hw.rings.ring_nil (hempty ▸ hw.vehList vincode item hitem)
        obtain ⟨hlive', hr'⟩ := hw.rings.ring_nil (hw.vehPrevList vincode item hitem)
        exact some_inj.mp ((hnew hbrings).symm.trans (initLists_of_nil hlive hlive' hr hr'))
  · obtain ⟨heap', R', hinit, hlists⟩ := hw.newJunction hnone
      fun j it hit heq => hfresh (mem_junctionAddrs.mpr ⟨j, it, hit, heq⟩)
    have hbrings := hnew (htree ▸ (bringsDevice_empty radarInfo).mpr (hfirst hnone))
    obtain rfl : heap = heap' := some_inj.mp (hbrings.symm.trans hinit)
    exact ⟨R', hlists.setJunction (by rw [find_set, if_pos rfl]) haddr⟩

/-- **A report of devices** that does not meet it: the list of a new junction is not linked, or
vehicles are not in the list of theirs any more. -/
theorem deviceUpdateSnapshot_breaks {w : World F}
    (hw : Lists w.snapshots.heap w.snapshots.vehicles w.snapshots.junctions w.lastAdded L R)
    (h : deviceUpdateSnapshot w.snapshots new vincode recTime junpkg = some (s', r))
    (hmeets : ¬ Meets w (.device new vincode recTime junpkg)) :
    ¬ World.Kept { w with snapshots := s' } := by
  refine fun hkept => hmeets fun radarInfo hne hpkg => ?_
  obtain ⟨-, hcase⟩ | ⟨_, s₁, item, heap, item', hpkg', -, hcreate, hreport, rfl⟩ :=
    deviceUpdateSnapshot_eq_some h
  · simp [hne, hpkg] at hcase
  obtain rfl : radarInfo = _ := some_inj.mp (hpkg.symm.trans hpkg')
  obtain ⟨haddr, hnew, hold⟩ := reportDevices_spec hreport
  obtain ⟨l, hring, -, hmem⟩ := hkept vincode item' (by rw [find_set, if_pos rfl])
  obtain ⟨hitem, rfl⟩ | ⟨hnone, -, -, rfl⟩ := checkCreateJunctionItem_eq_some hcreate
  · refine ⟨fun hnone => ?_, fun item₂ hitem₂ hbrings => ?_⟩
    · rw [hitem] at hnone
      cases hnone
    · obtain rfl : item = item₂ := some_inj.mp (hitem.symm.trans hitem₂)
      refine (hw.rings.isEmpty_iff (hw.vehList vincode item hitem)).mpr ?_
      rw [map_eq_nil_iff, eq_nil_iff_forall_not_mem]
      intro a ha
      obtain ⟨v, vitem, hv, -, hlast⟩ := (hw.mem vincode a).mp ha
      obtain ⟨-, -, -, hnil, -⟩ := initLists_spec (hnew hbrings)
      have hl : l.map Node.junctionownerlist = [] := hring.unique (haddr ▸ hnil)
      have hin := (hmem v vitem hv).mpr hlast
      rw [map_eq_nil_iff.mp hl] at hin
      cases hin
  · refine ⟨fun _ hnil => ?_, fun item₂ hitem₂ => ?_⟩
    · subst hnil
      cases hreport
      simpa [alloc] using hring.next_isSome
    · rw [hnone] at hitem₂
      cases hitem₂

end Devices

/-! ## Removals -/

/-- A node that points to itself is in no list. -/
theorem Lists.isEmpty_iff (hw : Lists heap vehicles junctions lastAdded L R)
    {item : VehicleSnapshotItem F} (hitem : vehicles.find v = some item) :
    heap.isEmpty (.junctionownerlist item.addr) = some true ↔ lastAdded v = none := by
  cases hlast : lastAdded v with
  | none => simp [hw.rings.isEmpty_iff (hw.alone v item hitem hlast)]
  | some j =>
      obtain ⟨⟨jitem, hj⟩, -⟩ := hw.known v j hlast
      have hmem := (hw.mem j item.addr).mpr ⟨v, item, hitem, rfl, hlast⟩
      simpa using hw.rings.isEmpty_of_mem (hw.vehList j jitem hj) (mem_map_of_mem hmem)

/-- **A deleted item** that was in no list is nowhere. -/
theorem Lists.erase (hw : Lists heap vehicles junctions lastAdded L R)
    {item : VehicleSnapshotItem F} (hitem : vehicles.find v = some item) (hlast : lastAdded v = none) :
    ∃ R', Lists ((heap.free (.junctionownerlist item.addr)).free (.junprevownerlist item.addr))
      (vehicles.erase v) junctions lastAdded L R' := by
  have hR := (hw.rings.free (hw.alone v item hitem hlast)).free (x := .junprevownerlist item.addr)
    (by simpa using hw.prevAlone v item hitem)
  have hfind : ∀ v' it, (vehicles.erase v).find v' = some it ↔
      v' ≠ v ∧ vehicles.find v' = some it := by
    intro v' it
    rw [find_erase]
    split_ifs with heq <;> simp [heq]
  have hother : ∀ v' it, v' ≠ v → vehicles.find v' = some it → it.addr ≠ item.addr :=
    fun v' it hne hit haddr => hne (hw.vehicleAddr v' v it item hit hitem haddr)
  refine ⟨_, hR, ?_, ?_, ?_, ?_, ?_, ?_, hw.junctionAddr, ?_, ?_, ?_⟩
  · intro j jitem hj
    simpa using hw.vehList j jitem hj
  · intro j jitem hj
    simpa using hw.vehPrevList j jitem hj
  · intro v' it hit hlast'
    obtain ⟨hne, hit⟩ := (hfind v' it).mp hit
    simpa [hother v' it hne hit] using hw.alone v' it hit hlast'
  · intro v' it hit
    obtain ⟨hne, hit⟩ := (hfind v' it).mp hit
    simpa [hother v' it hne hit] using hw.prevAlone v' it hit
  · intro j a
    rw [hw.mem]
    constructor
    · rintro ⟨v', it, hit, haddr, hlast'⟩
      refine ⟨v', it, (hfind v' it).mpr ⟨?_, hit⟩, haddr, hlast'⟩
      rintro rfl
      rw [hlast] at hlast'
      cases hlast'
    · rintro ⟨v', it, hit, haddr, hlast'⟩
      exact ⟨v', it, ((hfind v' it).mp hit).2, haddr, hlast'⟩
  · intro v' j hlast'
    obtain ⟨hj, it, hit⟩ := hw.known v' j hlast'
    refine ⟨hj, it, (hfind v' it).mpr ⟨?_, hit⟩⟩
    rintro rfl
    rw [hlast] at hlast'
    cases hlast'
  · intro v₁ v₂ it₁ it₂ h₁ h₂ heq
    exact hw.vehicleAddr v₁ v₂ it₁ it₂ ((hfind v₁ it₁).mp h₁).2 ((hfind v₂ it₂).mp h₂).2 heq
  · intro a ha
    exact hw.liveJunction a (by simpa [free] using ha)
  · intro a ha
    have hne : a ≠ item.addr := by
      rintro rfl
      simp [free] at ha
    obtain ⟨v', it, hit, haddr⟩ := hw.liveVehicle a (by simpa [free, hne] using ha)
    refine ⟨v', it, (hfind v' it).mpr ⟨?_, hit⟩, haddr⟩
    rintro rfl
    rw [hitem] at hit
    cases hit
    exact hne haddr.symm

/-- **A removal** of a vehicle that is in no list. -/
theorem removeSnapshot_lists {w : World F} {vid : Bytes}
    (hw : Lists w.snapshots.heap w.snapshots.vehicles w.snapshots.junctions w.lastAdded L R)
    (hmeets : Meets w (.remove vid)) :
    ∃ R', Lists (removeSnapshot w.snapshots vid).1.heap (removeSnapshot w.snapshots vid).1.vehicles
      (removeSnapshot w.snapshots vid).1.junctions (update w.lastAdded vid none) L R' := by
  unfold removeSnapshot
  cases hitem : w.snapshots.vehicles.find vid with
  | none =>
      have hlast : w.lastAdded vid = none := by
        by_contra hsome
        obtain ⟨j, hj⟩ := ne_none_iff_exists'.mp hsome
        obtain ⟨-, item, hitem'⟩ := hw.known vid j hj
        rw [hitem] at hitem'
        cases hitem'
      rw [update_eq_self_iff.mpr hlast.symm]
      exact ⟨R, hw⟩
  | some item =>
      have hlast := (hw.isEmpty_iff hitem).mp (hmeets item hitem)
      rw [update_eq_self_iff.mpr hlast.symm]
      exact hw.erase hitem hlast

/-- **A removal** of one that is in a list leaves a node of a deleted item there. -/
theorem removeSnapshot_breaks {w : World F} {vid : Bytes}
    (hw : Lists w.snapshots.heap w.snapshots.vehicles w.snapshots.junctions w.lastAdded L R)
    (hmeets : ¬ Meets w (.remove vid)) :
    ¬ World.Kept ⟨(removeSnapshot w.snapshots vid).1, update w.lastAdded vid none⟩ := by
  refine fun hkept => hmeets fun item hitem => (hw.isEmpty_iff hitem).mpr ?_
  by_contra hsome
  obtain ⟨j, hlast⟩ := ne_none_iff_exists'.mp hsome
  obtain ⟨⟨jitem, hj⟩, -⟩ := hw.known vid j hlast
  simp only [removeSnapshot, hitem] at hkept
  obtain ⟨l, hring, hvehicles, -⟩ := hkept j jitem hj
  -- deleting an item changes no pointer, so the list is what it was
  have hold : w.snapshots.heap.Ring (.vehList jitem.addr) (l.map .junctionownerlist) :=
    hring.congr (fun _ _ => rfl) fun _ _ => rfl
  have hl : l = L j := by
    refine map_injective_iff.mpr ?_ (hold.unique (hw.rings.ring _ _ (hw.vehList j jitem hj)))
    exact fun a b heq => Node.junctionownerlist.inj heq
  obtain ⟨v, vitem, hv, haddr⟩ := hvehicles item.addr
    (hl ▸ (hw.mem j item.addr).mpr ⟨vid, item, hitem, rfl, hlast⟩)
  rw [find_erase] at hv
  split_ifs at hv with hne
  exact hne (hw.vehicleAddr v vid vitem item hv hitem haddr)

/-! ## All runs -/

/-- **Which runs keep the lists**: in every state that a run passes through, each `veh_list` is
a circular list of the vehicles that were last added to it, if and only if a junction is
always created with a device, a further device comes while no vehicle is there, and a
vehicle is removed when it is at no junction. -/
theorem junction_lists_kept_iff [Double F] (map : Map F) (es : List (Event F)) :
    (∀ pre, pre <+: es → ∀ w rs, Machine.run (step map) .new pre = some (w, rs) → w.Kept) ↔
      Machine.Guarded (step map) (fun w e => (step map w e).isSome → Meets w e) .new es := by
  refine Machine.run_iff_guarded
    (I := fun w : World F => ∃ L R, Lists w.snapshots.heap w.snapshots.vehicles w.snapshots.junctions
      w.lastAdded L R) ?_ ?_ ?_ ⟨_, _, lists_new⟩
  · rintro w ⟨L, R, hw⟩
    exact hw.kept
  · rintro w e w' r ⟨L, R, hw⟩ hstep hmeets
    cases e with
    | vehicle new vincode recTime gps =>
        obtain ⟨p, hp, heq⟩ := map_eq_some_iff.mp hstep
        cases heq
        exact vehicleUpdateSnapshot_lists hw hp
    | remove vid =>
        cases hstep
        exact ⟨L, removeSnapshot_lists hw hmeets⟩
    | device new vincode recTime junpkg =>
        obtain ⟨p, hp, heq⟩ := map_eq_some_iff.mp hstep
        cases heq
        obtain ⟨R', hw'⟩ := deviceUpdateSnapshot_lists hw hp hmeets
        exact ⟨L, R', hw'⟩
  · rintro w e w' r ⟨L, R, hw⟩ hstep hmeets
    cases e with
    | vehicle new vincode recTime gps => exact absurd trivial hmeets
    | remove vid =>
        cases hstep
        exact removeSnapshot_breaks hw hmeets
    | device new vincode recTime junpkg =>
        obtain ⟨p, hp, heq⟩ := map_eq_some_iff.mp hstep
        cases heq
        exact deviceUpdateSnapshot_breaks hw hp hmeets

/-- Storage above everything in use. -/
def bump : Allocator where
  addr used := used.sum + 1
  addr_notMem used hmem := by
    have hle := le_sum_of_mem hmem
    omega

/-- Junction 7 is everywhere. -/
def junction7 : Map ℚ := ⟨some Prod.mk, (0, 0), fun _ _ _ => [⟨some 7, 0⟩]⟩

/-- Device 1 of junction 7 reports, a vehicle there, and device 2 of the junction. -/
def secondDevice : List (Event ℚ) :=
  [.device bump (toString 7) [] (some [⟨1, 5⟩]), .vehicle bump [86] [] (some ⟨0, 0⟩),
    .device bump (toString 7) [] (some [⟨2, 5⟩])]

/-- The second device of a junction empties the list its vehicles hang in. -/
theorem second_device_loses_vehicle :
    ∃ w rs, Machine.run (step junction7) .new secondDevice = some (w, rs) ∧ ¬ w.Kept := by
  refine ⟨_, _, rfl, fun hkept => ?_⟩
  obtain ⟨l, hring, -, hmem⟩ := hkept (toString 7) _ rfl
  have hl : l = [] := by
    refine map_eq_nil_iff.mp (hring.unique (Ring.nil_iff.mpr ⟨?_, ?_⟩)) <;> decide
  subst hl
  have hin := (hmem [86] _ rfl).mpr (by decide)
  cases hin

end V2I.JunctionLists
