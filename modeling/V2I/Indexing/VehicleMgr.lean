import V2I.Indexing.ServerEndpointMgr
import V2I.Lib.KeyTree

/-!
# V2I.Indexing.VehicleMgr

The vehicles that have registered (`vehicle-mgr.cpp`), in a tree by uid, a tree by vid and a list.

`InStep` is the invariant that makes the assertion after the first insertion of an addition safe:
the trees and the list have the same nodes, under different uids and different vids.
-/

namespace V2I.Indexing

open Function

/-- `uuid` -/
structure Uuid where
  data1 : UInt32
  data2 : UInt16
  data3 : UInt16
  data4 : Fin 8 → UInt8

/-- An upper-case hexadecimal digit. -/
def hexDigit (n : ℕ) : UInt8 := if n < 10 then (0x30 + n).toUInt8 else (0x41 + (n - 10)).toUInt8

/-- `%0wX` of `sprintf`, of a number of at most `w` digits. -/
def hex : ℕ → ℕ → Bytes
  | 0, _ => []
  | w + 1, n => hex w (n / 16) ++ [hexDigit (n % 16)]

/-- `uuid::to_hex` -/
def Uuid.toHex (u : Uuid) : Bytes :=
  hex 8 u.data1.toNat ++ 0x2d :: hex 4 u.data2.toNat ++ 0x2d :: hex 4 u.data3.toNat ++ 0x2d ::
    hex 2 (u.data4 0).toNat ++ hex 2 (u.data4 1).toNat ++ 0x2d ::
    (List.range 6).flatMap fun i => hex 2 (u.data4 (Fin.ofNat 8 (i + 2))).toNat

theorem Uuid.toHex_ne_nil (u : Uuid) : u.toHex ≠ [] := by simp [toHex]

/-- `vehicle_item` -/
structure VehicleItem where
  uid : Bytes
  vid : Bytes
  acctoken : Bytes
  deriving DecidableEq

/-- `vehicle_mgr`: the nodes in memory, those made so far below `next`, the two trees and the
list. -/
structure VehicleMgr where
  item : ℕ → Option VehicleItem
  next : ℕ
  uidTree : List ℕ
  vinTree : List ℕ
  vehicleList : List ℕ

namespace VehicleMgr

variable {m m' : VehicleMgr} {uid vid acctoken : Bytes} {u : Uuid} {p q : ℕ}

def new : VehicleMgr := ⟨fun _ => none, 0, [], [], []⟩

/-- The keys of the nodes. -/
def uidOf (m : VehicleMgr) (p : ℕ) : Option Bytes := (m.item p).map VehicleItem.uid

def vidOf (m : VehicleMgr) (p : ℕ) : Option Bytes := (m.item p).map VehicleItem.vid

/-- `find_vehicle_uid` -/
def findVehicleUid (m : VehicleMgr) (uid : Bytes) : Option ℕ := Index.find m.uidOf m.uidTree uid

/-- `find_vehicle_vid` -/
def findVehicleVid (m : VehicleMgr) (vid : Bytes) : Option ℕ := Index.find m.vidOf m.vinTree vid

/-- A vehicle that is known is given another token. -/
def setToken (m : VehicleMgr) (p : ℕ) (acctoken : Bytes) : VehicleMgr :=
  { m with
    item := update m.item p
      ((m.item p).map fun item => { item with acctoken := acctoken }) }

/-- `add_vehicle`, with the uuid that is generated. It aborts where the second insertion fails. -/
def addVehicle (m : VehicleMgr) (vid acctoken : Bytes) (u : Uuid) :
    Option (VehicleMgr × Option ℕ) :=
  match m.findVehicleVid vid with
  | some p => some (m.setToken p acctoken, some p)
  | none =>
      let m' := { m with
        item := update m.item m.next (some ⟨u.toHex, vid, acctoken⟩)
        next := m.next + 1 }
      match Index.insert m'.uidOf m.uidTree m.next with
      | none => some ({ m' with item := update m'.item m.next none }, none)
      | some uidTree =>
          (Index.insert m'.vidOf m.vinTree m.next).map fun vinTree =>
            ({ m' with uidTree, vinTree, vehicleList := m.vehicleList ++ [m.next] }, some m.next)

/-- A node is taken out of the trees and the list, and deleted. -/
def remove (m : VehicleMgr) (p : ℕ) : VehicleMgr :=
  { m with
    item := update m.item p none
    uidTree := m.uidTree.erase p
    vinTree := m.vinTree.erase p
    vehicleList := m.vehicleList.erase p }

/-- `remove_vehicle_by_uid` -/
def removeVehicleByUid (m : VehicleMgr) (uid : Bytes) : VehicleMgr × ℤ :=
  match m.findVehicleUid uid with
  | none => (m, -ENOTFOUND)
  | some p => (m.remove p, 0)

/-- `remove_vehicle_by_vid` -/
def removeVehicleByVid (m : VehicleMgr) (vid : Bytes) : VehicleMgr × ℤ :=
  match m.findVehicleVid vid with
  | none => (m, -ENOTFOUND)
  | some p => (m.remove p, 0)

/-- `get_vehicle_id`: the result, and the vid where it is 0. -/
def getVehicleId (m : VehicleMgr) (uid : Bytes) : ℤ × Option Bytes :=
  if uid.length = 0 then (-EBADPARM, none)
  else
    match m.findVehicleUid uid with
    | none => (-ENOTFOUND, none)
    | some p => (0, m.vidOf p)

/-! ## The trees and the list -/

/-- The trees and the list have the same nodes, all in memory, with uids that are not empty; no
two have one uid or one vid. -/
structure InStep (m : VehicleMgr) : Prop where
  uids : Index.Keyed m.uidOf m.uidTree
  vids : Index.Keyed m.vidOf m.vinTree
  vinTree : m.vinTree.Perm m.uidTree
  vehicleList : m.vehicleList.Perm m.uidTree
  live : ∀ p ∈ m.uidTree, (m.item p).isSome
  below : ∀ p ∈ m.uidTree, p < m.next
  named : ∀ p ∈ m.uidTree, m.uidOf p ≠ some []

/-- A vid, its uid and that uid's vid. -/
theorem InStep.getVehicleId_uid (h : m.InStep) (hfind : m.findVehicleVid vid = some p) :
    ∃ uid, m.uidOf p = some uid ∧ m.getVehicleId uid = (0, some vid) := by
  obtain ⟨hmem, hvid⟩ := Index.find_mem hfind
  have hmem := h.vinTree.mem_iff.mp hmem
  obtain ⟨item, hitem⟩ := Option.isSome_iff_exists.mp (h.live p hmem)
  have huid : m.uidOf p = some item.uid := by rw [uidOf, hitem, Option.map_some]
  have hnil : item.uid ≠ [] := fun hnil => h.named p hmem (huid.trans (congrArg some hnil))
  have hfind' : m.findVehicleUid item.uid = some p :=
    (Index.find_eq_some_iff h.uids).mpr ⟨hmem, huid⟩
  refine ⟨item.uid, huid, ?_⟩
  rw [getVehicleId, if_neg (fun hlen => hnil (List.length_eq_zero_iff.mp hlen)), hfind']
  exact congrArg _ hvid

/-- A node that is removed: none of the three has it, and it is not found; the others are found
as before. -/
structure Removed (m : VehicleMgr) (p : ℕ) (m' : VehicleMgr) : Prop where
  gone : p ∉ m'.uidTree ∧ p ∉ m'.vinTree ∧ p ∉ m'.vehicleList
  uid : ∀ uid, m'.findVehicleUid uid =
    if m.findVehicleUid uid = some p then none else m.findVehicleUid uid
  vid : ∀ vid, m'.findVehicleVid vid =
    if m.findVehicleVid vid = some p then none else m.findVehicleVid vid

theorem InStep.remove (h : m.InStep) (hp : p ∈ m.uidTree) :
    (m.remove p).InStep ∧ m.Removed p (m.remove p) := by
  have hvin : p ∈ m.vinTree := h.vinTree.mem_iff.mpr hp
  have hne : ∀ q ∈ m.uidTree.erase p, q ≠ p ∧ q ∈ m.uidTree :=
    fun q hq => h.uids.nodup.mem_erase_iff.mp hq
  have hvne : ∀ q ∈ m.vinTree.erase p, q ≠ p ∧ q ∈ m.vinTree :=
    fun q hq => h.vids.nodup.mem_erase_iff.mp hq
  have huid : ∀ q, q ≠ p → (m.remove p).uidOf q = m.uidOf q := by
    intro q hq
    simp only [VehicleMgr.remove, uidOf, update_of_ne hq]
  have hvid : ∀ q, q ≠ p → (m.remove p).vidOf q = m.vidOf q := by
    intro q hq
    simp only [VehicleMgr.remove, vidOf, update_of_ne hq]
  obtain ⟨item, hitem⟩ := Option.isSome_iff_exists.mp (h.live p hp)
  refine ⟨⟨(h.uids.erase p).congr fun q hq => huid q (hne q hq).1,
    (h.vids.erase p).congr fun q hq => hvid q (hvne q hq).1, h.vinTree.erase p,
    h.vehicleList.erase p, fun q hq => ?_, fun q hq => h.below q (hne q hq).2, fun q hq => ?_⟩,
    ⟨?_, ?_, ?_⟩, fun uid => ?_, fun vid => ?_⟩
  · simp only [VehicleMgr.remove, update_of_ne (hne q hq).1]
    exact h.live q (hne q hq).2
  · rw [huid q (hne q hq).1]
    exact h.named q (hne q hq).2
  · exact h.uids.nodup.not_mem_erase
  · exact h.vids.nodup.not_mem_erase
  · exact (h.vehicleList.nodup_iff.mpr h.uids.nodup).not_mem_erase
  · have hkey : m.uidOf p = some item.uid := by rw [uidOf, hitem, Option.map_some]
    change Index.find (m.remove p).uidOf (m.uidTree.erase p) uid = _
    rw [Index.find_congr fun q hq => huid q (hne q hq).1]
    refine (Index.find_erase h.uids hp hkey uid).trans ?_
    have hiff : m.findVehicleUid uid = some p ↔ uid = item.uid := by
      rw [findVehicleUid, Index.find_eq_some_iff h.uids, hkey]
      simp [hp, eq_comm]
    simp only [hiff]
    rfl
  · have hkey : m.vidOf p = some item.vid := by rw [vidOf, hitem, Option.map_some]
    change Index.find (m.remove p).vidOf (m.vinTree.erase p) vid = _
    rw [Index.find_congr fun q hq => hvid q (hvne q hq).1]
    refine (Index.find_erase h.vids hvin hkey vid).trans ?_
    have hiff : m.findVehicleVid vid = some p ↔ vid = item.vid := by
      rw [findVehicleVid, Index.find_eq_some_iff h.vids, hkey]
      simp [hvin, eq_comm]
    simp only [hiff]
    rfl

/-- A token is no key. -/
theorem keys_setToken (m : VehicleMgr) (p : ℕ) (acctoken : Bytes) :
    (m.setToken p acctoken).uidOf = m.uidOf ∧ (m.setToken p acctoken).vidOf = m.vidOf := by
  have hkeys : ∀ f : VehicleItem → Bytes, (∀ item acctoken, f { item with acctoken } = f item) →
      (fun q => ((m.setToken p acctoken).item q).map f) = fun q => (m.item q).map f := by
    intro f hf
    funext q
    simp only [setToken, update_apply]
    split_ifs with hq
    · subst hq
      cases m.item q with
      | none => rfl
      | some item => exact congrArg some (hf item acctoken)
    · rfl
  exact ⟨hkeys VehicleItem.uid fun _ _ => rfl, hkeys VehicleItem.vid fun _ _ => rfl⟩

/-- A vehicle that is known keeps its node and its uid; only the token is new. -/
theorem InStep.setToken (h : m.InStep) (p : ℕ) (acctoken : Bytes) :
    (m.setToken p acctoken).InStep := by
  obtain ⟨huid, hvid⟩ := keys_setToken m p acctoken
  refine ⟨?_, ?_, h.vinTree, h.vehicleList, fun q hq => ?_, h.below, fun q hq => ?_⟩
  · exact h.uids.congr fun q _ => congrFun huid q
  · exact h.vids.congr fun q _ => congrFun hvid q
  · have hlive := h.live q hq
    simp only [VehicleMgr.setToken, update_apply]
    split_ifs with heq
    · subst heq
      simpa using hlive
    · exact hlive
  · rw [huid]
    exact h.named q hq

/-- A node that is new to the trees and the list, with the nodes in memory as `item`. -/
def insertNew (m : VehicleMgr) (vid acctoken : Bytes) (u : Uuid) : VehicleMgr :=
  { m with
    item := update m.item m.next (some ⟨u.toHex, vid, acctoken⟩)
    next := m.next + 1
    uidTree := m.uidTree ++ [m.next]
    vinTree := m.vinTree ++ [m.next]
    vehicleList := m.vehicleList ++ [m.next] }

/-- **Addition** of an unknown vehicle: the second insertion goes through; the first one unless
the uid is there. -/
theorem InStep.addVehicle_unknown (h : m.InStep) (hfind : m.findVehicleVid vid = none)
    (acctoken : Bytes) (u : Uuid) :
    (∃ p ∈ m.uidTree, m.uidOf p = some u.toHex ∧ m.addVehicle vid acctoken u = some
      ({ m with item := update m.item m.next none, next := m.next + 1 }, none)) ∨
    (∀ p ∈ m.uidTree, m.uidOf p ≠ some u.toHex) ∧
      m.addVehicle vid acctoken u = some (m.insertNew vid acctoken u, some m.next) := by
  have hne : ∀ p ∈ m.uidTree, p ≠ m.next := fun p hp => Nat.ne_of_lt (h.below p hp)
  have huid : ∀ p ∈ m.uidTree, (m.insertNew vid acctoken u).uidOf p = m.uidOf p := by
    intro p hp
    simp only [insertNew, uidOf, update_of_ne (hne p hp)]
  have hvid : ∀ p ∈ m.vinTree, (m.insertNew vid acctoken u).vidOf p = m.vidOf p := by
    intro p hp
    simp only [insertNew, vidOf, update_of_ne (hne p (h.vinTree.mem_iff.mp hp))]
  have huid' : (m.insertNew vid acctoken u).uidOf m.next = some u.toHex := by
    simp [insertNew, uidOf]
  have hvid' : (m.insertNew vid acctoken u).vidOf m.next = some vid := by
    simp [insertNew, vidOf]
  have hvin : Index.insert (m.insertNew vid acctoken u).vidOf m.vinTree m.next =
      some (m.vinTree ++ [m.next]) := by
    refine Index.insert_eq_some fun p hp => ?_
    rw [hvid p hp, hvid']
    exact Index.find_eq_none_iff.mp hfind p hp
  by_cases hfresh : ∀ p ∈ m.uidTree, m.uidOf p ≠ some u.toHex
  · have hins : Index.insert (m.insertNew vid acctoken u).uidOf m.uidTree m.next =
        some (m.uidTree ++ [m.next]) := by
      refine Index.insert_eq_some fun p hp => ?_
      rw [huid p hp, huid']
      exact hfresh p hp
    refine .inr ⟨hfresh, ?_⟩
    unfold addVehicle
    rw [hfind]
    change (match Index.insert (m.insertNew vid acctoken u).uidOf m.uidTree m.next with
      | none => _
      | some uidTree =>
          (Index.insert (m.insertNew vid acctoken u).vidOf m.vinTree m.next).map _) = _
    rw [hins, hvin]
    rfl
  · simp only [not_forall, not_not] at hfresh
    obtain ⟨p, hp, hkey⟩ := hfresh
    have hins : Index.insert (m.insertNew vid acctoken u).uidOf m.uidTree m.next = none :=
      Index.insert_eq_none hp ((huid p hp).trans (hkey.trans huid'.symm))
    refine .inl ⟨p, hp, hkey, ?_⟩
    unfold addVehicle
    rw [hfind]
    change (match Index.insert (m.insertNew vid acctoken u).uidOf m.uidTree m.next with
      | none => _
      | some uidTree => _) = _
    rw [hins]
    simp

/-- A new vehicle is in all three and found under its uid and its vid; the others are found as
before. -/
theorem InStep.insertNew (h : m.InStep) (hfind : m.findVehicleVid vid = none) (acctoken : Bytes)
    (hfresh : ∀ p ∈ m.uidTree, m.uidOf p ≠ some u.toHex) :
    (m.insertNew vid acctoken u).InStep ∧
      (∀ uid, (m.insertNew vid acctoken u).findVehicleUid uid =
        if uid = u.toHex then some m.next else m.findVehicleUid uid) ∧
      ∀ vid', (m.insertNew vid acctoken u).findVehicleVid vid' =
        if vid' = vid then some m.next else m.findVehicleVid vid' := by
  have hne : ∀ p ∈ m.uidTree, p ≠ m.next := fun p hp => Nat.ne_of_lt (h.below p hp)
  have huid : ∀ p ∈ m.uidTree, (m.insertNew vid acctoken u).uidOf p = m.uidOf p := by
    intro p hp
    simp only [VehicleMgr.insertNew, uidOf, update_of_ne (hne p hp)]
  have hvid : ∀ p ∈ m.vinTree, (m.insertNew vid acctoken u).vidOf p = m.vidOf p := by
    intro p hp
    simp only [VehicleMgr.insertNew, vidOf, update_of_ne (hne p (h.vinTree.mem_iff.mp hp))]
  have huid' : (m.insertNew vid acctoken u).uidOf m.next = some u.toHex := by
    simp [VehicleMgr.insertNew, uidOf]
  have hvid' : (m.insertNew vid acctoken u).vidOf m.next = some vid := by
    simp [VehicleMgr.insertNew, vidOf]
  have hnot : m.next ∉ m.uidTree := fun hp => hne m.next hp rfl
  have huids : Index.Keyed (m.insertNew vid acctoken u).uidOf (m.uidTree ++ [m.next]) := by
    refine (h.uids.congr huid).append hnot fun p hp => ?_
    rw [huid p hp, huid']
    exact hfresh p hp
  have hvids : Index.Keyed (m.insertNew vid acctoken u).vidOf (m.vinTree ++ [m.next]) := by
    refine (h.vids.congr hvid).append (fun hp => hnot (h.vinTree.mem_iff.mp hp)) fun p hp => ?_
    rw [hvid p hp, hvid']
    exact Index.find_eq_none_iff.mp hfind p hp
  refine ⟨⟨huids, hvids, h.vinTree.append_right _, h.vehicleList.append_right _, ?_, ?_, ?_⟩,
    fun uid => ?_, fun vid' => ?_⟩
  · refine List.forall_mem_append.mpr ⟨fun p hp => ?_, ?_⟩
    · simp only [VehicleMgr.insertNew, update_of_ne (hne p hp)]
      exact h.live p hp
    · simp [VehicleMgr.insertNew]
  · refine List.forall_mem_append.mpr ⟨fun p hp => (h.below p hp).trans (Nat.lt_succ_self _), ?_⟩
    simp [VehicleMgr.insertNew]
  · refine List.forall_mem_append.mpr ⟨fun p hp => ?_, ?_⟩
    · rw [huid p hp]
      exact h.named p hp
    · simpa [huid'] using u.toHex_ne_nil
  · refine (Index.find_append huids huid' uid).trans ?_
    rw [Index.find_congr huid]
    rfl
  · refine (Index.find_append hvids hvid' vid').trans ?_
    rw [Index.find_congr hvid]
    rfl

/-- A node that was made and deleted again leaves no trace. -/
theorem InStep.deleteNew (h : m.InStep) :
    InStep { m with item := update m.item m.next none, next := m.next + 1 } := by
  have hne : ∀ p ∈ m.uidTree, p ≠ m.next := fun p hp => Nat.ne_of_lt (h.below p hp)
  have hitem : ∀ p ∈ m.uidTree, update m.item m.next none p = m.item p :=
    fun p hp => update_of_ne (hne p hp) _ _
  refine ⟨h.uids.congr fun p hp => ?_, h.vids.congr fun p hp => ?_, h.vinTree, h.vehicleList,
    fun p hp => ?_, fun p hp => (h.below p hp).trans (Nat.lt_succ_self _), fun p hp => ?_⟩
  · simp only [uidOf, hitem p hp]
  · simp only [vidOf, hitem p (h.vinTree.mem_iff.mp hp)]
  · simp only [hitem p hp]
    exact h.live p hp
  · have hnamed := h.named p hp
    simpa only [uidOf, hitem p hp] using hnamed

theorem inStep_new : new.InStep where
  uids := ⟨List.nodup_nil, by simp [new]⟩
  vids := ⟨List.nodup_nil, by simp [new]⟩
  vinTree := .refl _
  vehicleList := .refl _
  live := by simp [new]
  below := by simp [new]
  named := by simp [new]

end VehicleMgr

end V2I.Indexing
