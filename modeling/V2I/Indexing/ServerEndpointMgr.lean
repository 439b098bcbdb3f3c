import Mathlib.Algebra.GroupWithZero.Nat
import Mathlib.Algebra.Order.Group.Nat
import Mathlib.Algebra.Ring.Int.Defs
import Mathlib.Data.List.Nodup
import V2I.Zasbsc

/-!
# V2I.Indexing.ServerEndpointMgr

The table of the servers that take vehicles (`server-endpoint-mgr.cpp`): for each server of
the configuration its endpoints, each with the number of vehicles that it has.

An endpoint stands at an address and an item under its name. A tree and the list beside it hold
the same nodes, so the list stands for both; what `release_all_nodes` does to them is in
`releaseAllNodes`. The reference counts are in `V2I.Indexing.Lifetime`: an endpoint that the
table or a smart pointer refers to is not deleted, and no other is read here.
-/

namespace V2I.Indexing

open List Function

/-- `server_endpoint` -/
structure ServerEndpoint where
  identity : Bytes
  vehCnt : ℕ
  status : ℤ
  deriving DecidableEq

/-- `server_item`, with the addresses of its endpoints. -/
structure ServerItem where
  name : Bytes
  vehMaxCnt : ℕ
  endpoints : List ℕ
  deriving DecidableEq

/-- `server_endpoint_mgr`. The endpoints made so far stand below `next`. -/
structure ServerEndpointMgr where
  serverList : List ServerItem
  endpoint : ℕ → ServerEndpoint
  next : ℕ

/-- What `get_sysconfig` says of the server of a name: `none` where its name is not in the
configuration. -/
structure Sysconfig where
  known : Bool
  maxVehicleCount : Option ℤ

/-- A configuration with one maximum for all servers. -/
def oneServer (maxVehicleCount : ℤ) (_name : Bytes) : Sysconfig := ⟨true, some maxVehicleCount⟩

namespace ServerEndpointMgr

variable {config : Bytes → Sysconfig} {mgr mgr' : ServerEndpointMgr} {name identity : Bytes} {p : ℕ}

def new : ServerEndpointMgr := ⟨[], fun _ => ⟨[], 0, 0⟩, 0⟩

/-- An `int` that is stored in a `size_t`. -/
def toSize (i : ℤ) : ℕ := (i % 2 ^ 64).toNat

/-- A `size_t` that is stored in a `uint32_t`. -/
def toUint32 (n : ℕ) : ℕ := n % 2 ^ 32

/-- `INDEXING_SERVER_ENDPOINT_VEH_MAX_CNT` -/
def vehMaxCntDefault : ℤ := 10000

/-- `find_server_item` -/
def findServerItem (mgr : ServerEndpointMgr) (name : Bytes) : Option ServerItem :=
  mgr.serverList.find? (·.name = name)

/-- `init_server_info` -/
def initServerInfo (config : Bytes → Sysconfig) (name : Bytes) : Option ServerItem :=
  if (config name).known then
    some ⟨name, toSize ((config name).maxVehicleCount.getD vehMaxCntDefault), []⟩
  else none

/-- `add_server_item` -/
def addServerItem (config : Bytes → Sysconfig) (mgr : ServerEndpointMgr) (name : Bytes) :
    ServerEndpointMgr × Option ServerItem :=
  match mgr.findServerItem name with
  | some item => (mgr, some item)
  | none =>
      match initServerInfo config name with
      | none => (mgr, none)
      | some item => ({ mgr with serverList := mgr.serverList ++ [item] }, some item)

/-- `find_endpoint` -/
def findEndpoint (mgr : ServerEndpointMgr) (item : ServerItem) (identity : Bytes) : Option ℕ :=
  item.endpoints.find? fun p => (mgr.endpoint p).identity = identity

/-- The item of a name, changed in place. -/
def modifyItem (mgr : ServerEndpointMgr) (name : Bytes) (f : ServerItem → ServerItem) :
    ServerEndpointMgr :=
  { mgr with
    serverList := mgr.serverList.map fun item => if item.name = name then f item else item }

/-- `add_endpoint`, to an item of the table. -/
def addEndpoint (mgr : ServerEndpointMgr) (item : ServerItem) (identity : Bytes) (vehCnt : ℕ) :
    ServerEndpointMgr × ℕ :=
  match mgr.findEndpoint item identity with
  | some node => (mgr, node)
  | none =>
      let mgr' := mgr.modifyItem item.name fun item =>
        { item with endpoints := item.endpoints ++ [mgr.next] }
      ({ mgr' with
        endpoint := update mgr.endpoint mgr.next ⟨identity, vehCnt, 1⟩
        next := mgr.next + 1 }, mgr.next)

/-- `add_server_endpoint`. It aborts where the server is not in the configuration. -/
def addServerEndpoint (config : Bytes → Sysconfig) (mgr : ServerEndpointMgr)
    (name identity : Bytes) (vehCnt : ℕ) : Option (ServerEndpointMgr × Option ℕ) :=
  if name = [] ∨ identity = [] then some (mgr, none)
  else
    match addServerItem config mgr name with
    | (_, none) => none
    | (mgr', some item) =>
        let (mgr'', node) := mgr'.addEndpoint item identity vehCnt
        some (mgr'', some node)

/-- The loop of `alloc_server_endpoint_to_vehicle`: the endpoint chosen so far, with the least
count so far. -/
def leastEndpoint (endpoint : ℕ → ServerEndpoint) (node : Option ℕ) :
    List ℕ → Option ℕ → ℕ → Option ℕ
  | [], allocPoint, _ => allocPoint
  | point :: points, allocPoint, minVehCnt =>
      if (endpoint point).status ≠ 1 then leastEndpoint endpoint node points allocPoint minVehCnt
      else if (endpoint point).vehCnt < minVehCnt then
        if node = some point then leastEndpoint endpoint node points allocPoint minVehCnt
        else leastEndpoint endpoint node points (some point) (endpoint point).vehCnt
      else leastEndpoint endpoint node points allocPoint minVehCnt

/-- An endpoint takes one more vehicle. -/
def take (mgr : ServerEndpointMgr) (point : ℕ) : ServerEndpointMgr :=
  { mgr with
    endpoint := update mgr.endpoint point
      { mgr.endpoint point with vehCnt := (mgr.endpoint point).vehCnt + 1 } }

/-- `alloc_server_endpoint_to_vehicle` -/
def allocServerEndpointToVehicle (mgr : ServerEndpointMgr) (svrName : Bytes)
    (master : Option ℕ) : ServerEndpointMgr × Option ℕ :=
  match mgr.findServerItem svrName with
  | none => (mgr, none)
  | some item =>
      match leastEndpoint mgr.endpoint master item.endpoints none (toUint32 item.vehMaxCnt) with
      | none => (mgr, none)
      | some point => (mgr.take point, some point)

/-- An endpoint is given another status. -/
def setStatus (mgr : ServerEndpointMgr) (point : ℕ) (status : ℤ) : ServerEndpointMgr :=
  { mgr with
    endpoint := update mgr.endpoint point { mgr.endpoint point with status := status } }

/-! ## Registration -/

/-- The endpoints of the table have been made. -/
def Below (mgr : ServerEndpointMgr) : Prop :=
  ∀ item ∈ mgr.serverList, ∀ p ∈ item.endpoints, p < mgr.next

theorem findServerItem_mem {item : ServerItem} (h : mgr.findServerItem name = some item) :
    item ∈ mgr.serverList := mem_of_find?_eq_some h

/-- The item of a server is there, or a new one without endpoints. -/
theorem addServerItem_cases (config : Bytes → Sysconfig) (mgr : ServerEndpointMgr) (name : Bytes) :
    (addServerItem config mgr name).1 = mgr ∨ ∃ item : ServerItem, item.endpoints = [] ∧
      item.name = name ∧ mgr.findServerItem name = none ∧
      (addServerItem config mgr name).1 = { mgr with serverList := mgr.serverList ++ [item] } := by
  unfold addServerItem
  cases hfind : mgr.findServerItem name with
  | some item => exact .inl rfl
  | none =>
      cases hinit : initServerInfo config name with
      | none => exact .inl rfl
      | some item =>
          simp only [initServerInfo, Option.ite_none_right_eq_some, Option.some.injEq] at hinit
          obtain ⟨-, rfl⟩ := hinit
          exact .inr ⟨_, rfl, rfl, rfl, rfl⟩

/-- The endpoint is there, or a new one goes on the list of the item. -/
theorem addEndpoint_cases (mgr : ServerEndpointMgr) (item : ServerItem) (identity : Bytes)
    (vehCnt : ℕ) : (mgr.addEndpoint item identity vehCnt).1 = mgr ∨
      (mgr.addEndpoint item identity vehCnt).1 = { mgr with
        serverList := (mgr.modifyItem item.name fun item =>
          { item with endpoints := item.endpoints ++ [mgr.next] }).serverList
        endpoint := update mgr.endpoint mgr.next ⟨identity, vehCnt, 1⟩
        next := mgr.next + 1 } := by
  unfold addEndpoint
  cases hfind : mgr.findEndpoint item identity with
  | some node => exact .inl rfl
  | none => exact .inr rfl

theorem addServerItem_below (h : mgr.Below) (config : Bytes → Sysconfig) (name : Bytes) :
    (addServerItem config mgr name).1.Below := by
  rcases addServerItem_cases config mgr name with heq | ⟨item, hnil, -, -, heq⟩
  · rwa [heq]
  · rw [heq]
    intro item' hmem p hp
    rcases mem_append.mp hmem with hmem | hmem
    · exact h item' hmem p hp
    · rw [mem_singleton.mp hmem, hnil] at hp
      cases hp

theorem addEndpoint_below (h : mgr.Below) (item : ServerItem) (identity : Bytes) (vehCnt : ℕ) :
    (mgr.addEndpoint item identity vehCnt).1.Below := by
  rcases mgr.addEndpoint_cases item identity vehCnt with heq | heq
  · rwa [heq]
  · rw [heq]
    intro item' hitem' p hp
    obtain ⟨item₀, hmem, rfl⟩ := mem_map.mp hitem'
    split_ifs at hp
    · rcases mem_append.mp hp with hp | hp
      · exact (h item₀ hmem p hp).trans (Nat.lt_succ_self _)
      · rw [mem_singleton.mp hp]
        exact Nat.lt_succ_self _
    · exact (h item₀ hmem p hp).trans (Nat.lt_succ_self _)

/-- **Registration**: the table has no new endpoint, or one with the count of the request. -/
theorem addServerEndpoint_cases {vehCnt : ℕ} {r : Option ℕ}
    (h : addServerEndpoint config mgr name identity vehCnt = some (mgr', r)) (hmgr : mgr.Below) :
    mgr'.Below ∧ ((mgr'.endpoint = mgr.endpoint ∧ mgr'.next = mgr.next) ∨
      (mgr'.endpoint = update mgr.endpoint mgr.next ⟨identity, vehCnt, 1⟩ ∧
        mgr'.next = mgr.next + 1)) := by
  unfold addServerEndpoint at h
  split_ifs at h with hname
  · cases h
    exact ⟨hmgr, .inl ⟨rfl, rfl⟩⟩
  · have hbelow := addServerItem_below hmgr config name
    have hsame : (addServerItem config mgr name).1.endpoint = mgr.endpoint ∧
        (addServerItem config mgr name).1.next = mgr.next := by
      rcases addServerItem_cases config mgr name with heq | ⟨item, -, -, -, heq⟩ <;> simp [heq]
    cases hitem : addServerItem config mgr name with
    | mk mgr₁ item =>
        simp only [hitem] at h hbelow hsame
        cases item with
        | none => cases h
        | some item =>
            simp only [Option.some.injEq, Prod.mk.injEq] at h
            obtain ⟨rfl, -⟩ := h
            refine ⟨addEndpoint_below hbelow item identity vehCnt, ?_⟩
            rcases mgr₁.addEndpoint_cases item identity vehCnt with heq | heq
            · rw [heq]
              exact .inl hsame
            · rw [heq]
              exact .inr ⟨by simp only [hsame], by simp only [hsame]⟩

/-! ## What is allocated -/

/-- An endpoint of a server that is enabled and has less than the maximum of vehicles, other
than an excluded one. -/
def Eligible (mgr : ServerEndpointMgr) (name : Bytes) (other : Option ℕ) (p : ℕ) : Prop :=
  ∃ item, mgr.findServerItem name = some item ∧ p ∈ item.endpoints ∧ (mgr.endpoint p).status = 1 ∧
    (mgr.endpoint p).vehCnt < item.vehMaxCnt ∧ other ≠ some p

/-- An endpoint that has the fewest vehicles of those. -/
def Least (mgr : ServerEndpointMgr) (name : Bytes) (other : Option ℕ) (p : ℕ) : Prop :=
  mgr.Eligible name other p ∧
    ∀ q, mgr.Eligible name other q → (mgr.endpoint p).vehCnt ≤ (mgr.endpoint q).vehCnt

/-- The count of an eligible endpoint is also below the low 32 bits of the maximum. -/
def Offered (mgr : ServerEndpointMgr) (name : Bytes) (other : Option ℕ) (p : ℕ) : Prop :=
  mgr.Eligible name other p ∧
    ∀ item ∈ mgr.findServerItem name, (mgr.endpoint p).vehCnt < toUint32 item.vehMaxCnt

section Alloc

variable (endpoint : ℕ → ServerEndpoint) (node : Option ℕ)

/-- The running minimum: the point before the loop, or a point of the list that is enabled,
not excluded and below the bound, with the least count of these. -/
theorem leastEndpoint_spec (points : List ℕ) (allocPoint : Option ℕ) (minVehCnt : ℕ) :
    (leastEndpoint endpoint node points allocPoint minVehCnt = allocPoint ∧
      ∀ q ∈ points, (endpoint q).status = 1 → node ≠ some q → minVehCnt ≤ (endpoint q).vehCnt) ∨
    ∃ p ∈ points, leastEndpoint endpoint node points allocPoint minVehCnt = some p ∧
      (endpoint p).status = 1 ∧ node ≠ some p ∧ (endpoint p).vehCnt < minVehCnt ∧
      ∀ q ∈ points, (endpoint q).status = 1 → node ≠ some q →
        (endpoint p).vehCnt ≤ (endpoint q).vehCnt := by
  induction points generalizing allocPoint minVehCnt with
  | nil => exact .inl ⟨rfl, by simp⟩
  | cons point points ih =>
      simp only [leastEndpoint]
      split_ifs with hstatus hless hnode
      · rcases ih allocPoint minVehCnt with ⟨heq, hall⟩ | ⟨p, hp, heq, hon, hne, hlt, hall⟩
        · exact .inl ⟨heq, forall_mem_cons.mpr ⟨fun h => absurd h hstatus, hall⟩⟩
        · exact .inr ⟨p, mem_cons_of_mem _ hp, heq, hon, hne, hlt,
            forall_mem_cons.mpr ⟨fun h => absurd h hstatus, hall⟩⟩
      · rcases ih allocPoint minVehCnt with ⟨heq, hall⟩ | ⟨p, hp, heq, hon, hne, hlt, hall⟩
        · exact .inl ⟨heq, forall_mem_cons.mpr ⟨fun _ h => absurd hnode h, hall⟩⟩
        · exact .inr ⟨p, mem_cons_of_mem _ hp, heq, hon, hne, hlt,
            forall_mem_cons.mpr ⟨fun _ h => absurd hnode h, hall⟩⟩
      · have hstatus := not_not.mp hstatus
        rcases ih (some point) (endpoint point).vehCnt with
          ⟨heq, hall⟩ | ⟨p, hp, heq, hon, hne, hlt, hall⟩
        · exact .inr ⟨point, mem_cons_self, heq, hstatus, hnode, hless,
            forall_mem_cons.mpr ⟨fun _ _ => le_rfl, hall⟩⟩
        · exact .inr ⟨p, mem_cons_of_mem _ hp, heq, hon, hne, hlt.trans hless,
            forall_mem_cons.mpr ⟨fun _ _ => hlt.le, hall⟩⟩
      · have hle := Nat.not_lt.mp hless
        rcases ih allocPoint minVehCnt with ⟨heq, hall⟩ | ⟨p, hp, heq, hon, hne, hlt, hall⟩
        · exact .inl ⟨heq, forall_mem_cons.mpr ⟨fun _ _ => hle, hall⟩⟩
        · exact .inr ⟨p, mem_cons_of_mem _ hp, heq, hon, hne, hlt,
            forall_mem_cons.mpr ⟨fun _ _ => hlt.le.trans hle, hall⟩⟩

theorem toUint32_le (n : ℕ) : toUint32 n ≤ n := Nat.mod_le _ _

/-- **Allocation**: nothing is allocated and no endpoint is offered, or an offered endpoint with
the fewest vehicles takes one more. -/
theorem alloc_cases (mgr : ServerEndpointMgr) (name : Bytes) (other : Option ℕ) :
    (mgr.allocServerEndpointToVehicle name other = (mgr, none) ∧ ∀ p, ¬ mgr.Offered name other p) ∨
    ∃ p, mgr.allocServerEndpointToVehicle name other = (mgr.take p, some p) ∧
      mgr.Offered name other p ∧ mgr.Least name other p := by
  unfold allocServerEndpointToVehicle
  cases hitem : mgr.findServerItem name with
  | none =>
      refine .inl ⟨rfl, fun p hp => ?_⟩
      obtain ⟨item, heq, -⟩ := hp.1
      cases hitem.symm.trans heq
  | some item =>
      simp only
      rcases leastEndpoint_spec mgr.endpoint other item.endpoints none
        (toUint32 item.vehMaxCnt) with ⟨heq, hall⟩ | ⟨p, hp, heq, hon, hne, hlt, hall⟩
      · rw [heq]
        refine .inl ⟨rfl, fun p hp => ?_⟩
        obtain ⟨⟨item', heq', hmem, hon, -, hne⟩, hlt⟩ := hp
        cases hitem.symm.trans heq'
        exact absurd (hlt item hitem) (Nat.not_lt.mpr (hall p hmem hon hne))
      · rw [heq]
        have helig : mgr.Eligible name other p :=
          ⟨item, hitem, hp, hon, hlt.trans_le (toUint32_le _), hne⟩
        refine .inr ⟨p, rfl, ⟨helig, fun item' heq' => ?_⟩, helig, fun q hq => ?_⟩
        · cases hitem.symm.trans heq'
          exact hlt
        · obtain ⟨item', heq', hmem, hon', -, hne'⟩ := hq
          cases hitem.symm.trans heq'
          exact hall q hmem hon' hne'

end Alloc

@[simp] theorem status_take {q : ℕ} :
    ((mgr.take p).endpoint q).status = (mgr.endpoint q).status := by
  simp only [take, update_apply]
  split_ifs with h
  · rw [h]
  · rfl

theorem vehCnt_take {q : ℕ} :
    ((mgr.take p).endpoint q).vehCnt = (mgr.endpoint q).vehCnt + if q = p then 1 else 0 := by
  simp only [take, update_apply]
  split_ifs with h
  · rw [h]
  · rfl

@[simp] theorem vehCnt_setStatus {status : ℤ} {q : ℕ} :
    ((mgr.setStatus p status).endpoint q).vehCnt = (mgr.endpoint q).vehCnt := by
  simp only [setStatus, update_apply]
  split_ifs with h
  · rw [h]
  · rfl

end ServerEndpointMgr

end V2I.Indexing
