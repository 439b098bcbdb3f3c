import V2I.Indexing.ServerEndpointMgr
import V2I.Lib.Machine

/-!
# V2I.Indexing.ForwardArbitrate

The two endpoints that a vehicle's messages of a service go to (`forward_arbitrate.cpp`,
`check_set_service_node`): a master and a slave, replaced when they are no longer enabled.

`Checked` lists what a call can do. `Routed` is what a call is for, and `routed_iff_meets` says
when it does that, in any state that calls for any vehicles and changes of the status of
endpoints lead to: the allocator compares with the low 32 bits of the maximum, so it fails to
see an endpoint that has more vehicles than these bits and fewer than the maximum.
-/

namespace V2I.Indexing

/-- `service_endpoint`, with the address of the endpoint. -/
structure ServiceEndpoint where
  endpoint : Option ℕ
  identity : Bytes
  deriving DecidableEq

/-- `forward_service_node` -/
structure ForwardServiceNode where
  name : Bytes
  nodeId : Bytes
  master : ServiceEndpoint
  slaver : ServiceEndpoint
  deriving DecidableEq

/-- A node as `add_forward_service_node` makes it. -/
def ForwardServiceNode.new (name nodeId : Bytes) : ForwardServiceNode :=
  ⟨name, nodeId, ⟨none, []⟩, ⟨none, []⟩⟩

namespace ServerEndpointMgr

variable {mgr : ServerEndpointMgr} {name : Bytes} {node : ForwardServiceNode}
  {other : Option ℕ} {m p q : ℕ}

/-- A slot that holds an enabled endpoint. -/
def Valid (mgr : ServerEndpointMgr) (slot : ServiceEndpoint) : Prop :=
  ∃ p ∈ slot.endpoint, (mgr.endpoint p).status = 1

instance : DecidablePred mgr.Valid := fun slot =>
  inferInstanceAs (Decidable (∃ p ∈ slot.endpoint, _))

/-- A slot given an allocated endpoint: without one the identity stays as it is. -/
def setSlot (mgr : ServerEndpointMgr) (slot : ServiceEndpoint) (p : Option ℕ) : ServiceEndpoint :=
  ⟨p, p.elim slot.identity fun p => (mgr.endpoint p).identity⟩

/-- `check_set_service_node` -/
def checkSetServiceNode (mgr : ServerEndpointMgr) (node : ForwardServiceNode) :
    ServerEndpointMgr × ForwardServiceNode × ℤ :=
  if ¬ mgr.Valid node.master ∧ ¬ mgr.Valid node.slaver then
    match mgr.allocServerEndpointToVehicle node.name none with
    | (mgr', none) => (mgr', { node with master := mgr'.setSlot node.master none }, -EINVALID)
    | (mgr', some master) =>
        let node' := { node with master := mgr'.setSlot node.master (some master) }
        let (mgr'', slaver) := mgr'.allocServerEndpointToVehicle node.name (some master)
        (mgr'', { node' with slaver := mgr''.setSlot node.slaver slaver }, 0)
  else if mgr.Valid node.master ∧ ¬ mgr.Valid node.slaver then
    let (mgr', slaver) := mgr.allocServerEndpointToVehicle node.name node.master.endpoint
    (mgr', { node with slaver := mgr'.setSlot node.slaver slaver }, 0)
  else if ¬ mgr.Valid node.master ∧ mgr.Valid node.slaver then
    match mgr.allocServerEndpointToVehicle node.name node.slaver.endpoint with
    | (mgr', none) =>
        (mgr', { node with
          master := mgr'.setSlot node.master node.slaver.endpoint
          slaver := ⟨none, []⟩ }, 0)
    | (mgr', some master) =>
        (mgr', { node with master := mgr'.setSlot node.master (some master) }, 0)
  else (mgr, node, 0)

/-! ## What a call does -/

theorem vehCnt_take_of_ne (h : p ≠ m) :
    ((mgr.take m).endpoint p).vehCnt = (mgr.endpoint p).vehCnt := by
  rw [vehCnt_take, if_neg h, Nat.add_zero]

theorem eligible_take : (mgr.take m).Eligible name (some m) p ↔ mgr.Eligible name (some m) p := by
  have hcount : some m ≠ some p → ((mgr.take m).endpoint p).vehCnt = (mgr.endpoint p).vehCnt := by
    exact fun hne => vehCnt_take_of_ne fun h => hne (congrArg some h.symm)
  constructor
  · rintro ⟨item, hitem, hmem, hon, hlt, hne⟩
    exact ⟨item, hitem, hmem, status_take ▸ hon, hcount hne ▸ hlt, hne⟩
  · rintro ⟨item, hitem, hmem, hon, hlt, hne⟩
    exact ⟨item, hitem, hmem, status_take.trans hon, (hcount hne).symm ▸ hlt, hne⟩

theorem Eligible.ne (h : mgr.Eligible name other p) : other ≠ some p := by
  obtain ⟨_, _, _, _, _, hne⟩ := h
  exact hne

theorem Eligible.enabled (h : mgr.Eligible name other p) : (mgr.endpoint p).status = 1 := by
  obtain ⟨_, _, _, hon, _⟩ := h
  exact hon

theorem least_take (h : (mgr.take m).Least name (some m) q) : mgr.Least name (some m) q := by
  obtain ⟨helig, hall⟩ := h
  refine ⟨eligible_take.mp helig, fun p hp => ?_⟩
  have hle := hall p (eligible_take.mpr hp)
  rwa [vehCnt_take_of_ne fun h => helig.ne (congrArg some h.symm),
    vehCnt_take_of_ne fun h => hp.ne (congrArg some h.symm)] at hle

variable {slot : ServiceEndpoint}

theorem valid_iff (h : slot.endpoint = some p) : mgr.Valid slot ↔ (mgr.endpoint p).status = 1 := by
  simp [Valid, h]

/-- An endpoint that is not enabled excludes nothing. -/
theorem eligible_of_not_valid (h : ¬ mgr.Valid slot) :
    mgr.Eligible name none p ↔ mgr.Eligible name slot.endpoint p := by
  constructor
  · rintro ⟨item, hitem, hmem, hon, hlt, -⟩
    exact ⟨item, hitem, hmem, hon, hlt, fun heq => h ((valid_iff heq).mpr hon)⟩
  · rintro ⟨item, hitem, hmem, hon, hlt, -⟩
    exact ⟨item, hitem, hmem, hon, hlt, nofun⟩

/-- What a call can do: the table, the node and the result that it ends with. -/
inductive Checked (mgr : ServerEndpointMgr) (node : ForwardServiceNode) :
    ServerEndpointMgr × ForwardServiceNode × ℤ → Prop
  | failed (hmaster : ¬ mgr.Valid node.master) (hslaver : ¬ mgr.Valid node.slaver)
      (hnone : ∀ p, ¬ mgr.Offered node.name none p) :
      Checked mgr node (mgr, { node with master := ⟨none, node.master.identity⟩ }, -EINVALID)
  | alone (hmaster : ¬ mgr.Valid node.master) (hslaver : ¬ mgr.Valid node.slaver) (m : ℕ)
      (hoffered : mgr.Offered node.name none m) (hleast : mgr.Least node.name none m) :
      Checked mgr node (mgr.take m, { node with
        master := ⟨some m, (mgr.endpoint m).identity⟩
        slaver := ⟨none, node.slaver.identity⟩ }, 0)
  | both (hmaster : ¬ mgr.Valid node.master) (hslaver : ¬ mgr.Valid node.slaver) (m q : ℕ)
      (hoffered : mgr.Offered node.name none m) (hleast : mgr.Least node.name none m)
      (hother : mgr.Least node.name (some m) q) :
      Checked mgr node ((mgr.take m).take q, { node with
        master := ⟨some m, (mgr.endpoint m).identity⟩
        slaver := ⟨some q, (mgr.endpoint q).identity⟩ }, 0)
  | masterAlone (hmaster : mgr.Valid node.master) (hslaver : ¬ mgr.Valid node.slaver) :
      Checked mgr node (mgr, { node with slaver := ⟨none, node.slaver.identity⟩ }, 0)
  | newSlaver (hmaster : mgr.Valid node.master) (hslaver : ¬ mgr.Valid node.slaver) (q : ℕ)
      (hleast : mgr.Least node.name node.master.endpoint q) :
      Checked mgr node (mgr.take q, { node with
        slaver := ⟨some q, (mgr.endpoint q).identity⟩ }, 0)
  | moved (hmaster : ¬ mgr.Valid node.master) (hslaver : mgr.Valid node.slaver)
      (hnone : ∀ p, ¬ mgr.Offered node.name node.slaver.endpoint p) (identity : Bytes) :
      Checked mgr node (mgr, { node with
        master := ⟨node.slaver.endpoint, identity⟩
        slaver := ⟨none, []⟩ }, 0)
  | newMaster (hmaster : ¬ mgr.Valid node.master) (hslaver : mgr.Valid node.slaver) (m : ℕ)
      (hoffered : mgr.Offered node.name node.slaver.endpoint m)
      (hleast : mgr.Least node.name node.slaver.endpoint m) :
      Checked mgr node (mgr.take m, { node with
        master := ⟨some m, (mgr.endpoint m).identity⟩ }, 0)
  | kept (hmaster : mgr.Valid node.master) (hslaver : mgr.Valid node.slaver) :
      Checked mgr node (mgr, node, 0)

@[simp] theorem identity_take : ((mgr.take p).endpoint q).identity = (mgr.endpoint q).identity := by
  simp only [take, Function.update_apply]
  split_ifs with h
  · rw [h]
  · rfl

theorem checked (mgr : ServerEndpointMgr) (node : ForwardServiceNode) :
    Checked mgr node (mgr.checkSetServiceNode node) := by
  unfold checkSetServiceNode
  split_ifs with hboth honly hother
  · rcases mgr.alloc_cases node.name none with ⟨heq, hnone⟩ | ⟨m, heq, hoffered, hleast⟩
    · rw [heq]
      exact .failed hboth.1 hboth.2 hnone
    · rw [heq]
      simp only
      rcases (mgr.take m).alloc_cases node.name (some m) with ⟨heq', -⟩ | ⟨q, heq', -, hleast'⟩
      · rw [heq']
        simpa [setSlot] using Checked.alone hboth.1 hboth.2 m hoffered hleast
      · rw [heq']
        simpa [setSlot] using
          Checked.both hboth.1 hboth.2 m q hoffered hleast (least_take hleast')
  · rcases mgr.alloc_cases node.name node.master.endpoint with ⟨heq, -⟩ | ⟨q, heq, -, hleast⟩
    · rw [heq]
      exact .masterAlone honly.1 honly.2
    · rw [heq]
      simpa [setSlot] using Checked.newSlaver honly.1 honly.2 q hleast
  · rcases mgr.alloc_cases node.name node.slaver.endpoint with
      ⟨heq, hnone⟩ | ⟨m, heq, hoffered, hleast⟩
    · rw [heq]
      exact .moved hother.1 hother.2 hnone _
    · rw [heq]
      simpa [setSlot] using Checked.newMaster hother.1 hother.2 m hoffered hleast
  · exact .kept (by tauto) (by tauto)

/-! ## What a call is for -/

/-- A call routes: it ends with a live master and another live slave or none, keeps the valid
endpoints, fails only where nothing can be allocated and allocates the least loaded. -/
structure Routed (mgr : ServerEndpointMgr) (node : ForwardServiceNode)
    (mgr' : ServerEndpointMgr) (node' : ForwardServiceNode) (ret : ℤ) : Prop where
  live : ret = 0 → ∃ m, node'.master.endpoint = some m ∧ (mgr'.endpoint m).status = 1 ∧
    ∀ q ∈ node'.slaver.endpoint, (mgr'.endpoint q).status = 1 ∧ q ≠ m
  masterKept : mgr.Valid node.master → node'.master.endpoint = node.master.endpoint
  slaverKept : mgr.Valid node.slaver → node'.slaver.endpoint = node.slaver.endpoint ∨
    (node'.slaver.endpoint = none ∧ node'.master.endpoint = node.slaver.endpoint ∧
      ¬ mgr.Valid node.master ∧ ∀ p, ¬ mgr.Eligible node.name node.slaver.endpoint p)
  failed : ret ≠ 0 → ¬ mgr.Valid node.master ∧ ¬ mgr.Valid node.slaver ∧
    ∀ p, ¬ mgr.Eligible node.name none p
  masterLeast : ∀ p ∈ node'.master.endpoint, node.master.endpoint ≠ some p →
    node.slaver.endpoint ≠ some p → mgr.Least node.name node.slaver.endpoint p
  slaverLeast : ∀ p ∈ node'.slaver.endpoint, node.slaver.endpoint ≠ some p →
    mgr.Least node.name node'.master.endpoint p

/-- The master is valid, or an endpoint is offered if any is eligible. -/
def Meets (mgr : ServerEndpointMgr) (node : ForwardServiceNode) : Prop :=
  mgr.Valid node.master ∨ ((∃ p, mgr.Eligible node.name node.slaver.endpoint p) →
    ∃ p, mgr.Offered node.name node.slaver.endpoint p)

/-- The slave is another endpoint than the master. -/
def Distinct (node : ForwardServiceNode) : Prop :=
  ∀ p ∈ node.master.endpoint, node.slaver.endpoint ≠ some p

theorem offered_of_not_valid (h : ¬ mgr.Valid slot) :
    mgr.Offered name none p ↔ mgr.Offered name slot.endpoint p :=
  and_congr_left' (eligible_of_not_valid h)

theorem least_of_not_valid (h : ¬ mgr.Valid slot) :
    mgr.Least name none p ↔ mgr.Least name slot.endpoint p := by
  simp only [Least, eligible_of_not_valid h]

variable {r : ServerEndpointMgr × ForwardServiceNode × ℤ}

/-- A call leaves two different endpoints. -/
theorem Checked.distinct (h : Checked mgr node r) (hnode : Distinct node) : Distinct r.2.1 := by
  cases h with
  | failed => simp [Distinct]
  | alone => simp [Distinct]
  | both _ _ m q _ _ hother =>
      intro p hp heq
      cases hp
      exact hother.1.ne heq.symm
  | masterAlone => simp [Distinct]
  | newSlaver _ _ q hleast =>
      intro p hp heq
      exact hleast.1.ne ((Option.mem_def.mp hp).trans heq.symm)
  | moved => simp [Distinct]
  | newMaster _ _ m _ hleast =>
      intro p hp heq
      cases hp
      exact hleast.1.ne heq
  | kept => exact hnode

/-- **One call** routes exactly if an endpoint is offered where one is eligible. -/
theorem Checked.routed_iff (h : Checked mgr node r) (hnode : Distinct node) :
    Routed mgr node r.1 r.2.1 r.2.2 ↔ mgr.Meets node := by
  cases h with
  | failed hmaster hslaver hnone =>
      constructor
      · intro h
        obtain ⟨-, -, hnot⟩ := h.failed (by simp [EINVALID])
        exact .inr fun ⟨p, hp⟩ => absurd ((eligible_of_not_valid hslaver).mpr hp) (hnot p)
      · rintro (h | h)
        · exact absurd h hmaster
        · refine ⟨by simp [EINVALID], fun h => absurd h hmaster, fun h => absurd h hslaver,
            fun _ => ⟨hmaster, hslaver, fun p hp => ?_⟩, by simp, ?_⟩
          · obtain ⟨q, hq⟩ := h ⟨p, (eligible_of_not_valid hslaver).mp hp⟩
            exact hnone q ((offered_of_not_valid hslaver).mpr hq)
          · exact fun p hp hne => absurd hp hne
  | alone hmaster hslaver m hoffered hleast =>
      refine iff_of_true ⟨fun _ => ⟨m, rfl, ?_, by simp⟩, fun h => absurd h hmaster,
        fun h => absurd h hslaver, by simp, ?_, by simp⟩
        (.inr fun _ => ⟨m, (offered_of_not_valid hslaver).mp hoffered⟩)
      · exact status_take.trans hleast.1.enabled
      · rintro p hp - -
        cases hp
        exact (least_of_not_valid hslaver).mp hleast
  | both hmaster hslaver m q hoffered hleast hother =>
      refine iff_of_true ⟨fun _ => ⟨m, rfl, ?_, ?_⟩, fun h => absurd h hmaster,
        fun h => absurd h hslaver, by simp, ?_, ?_⟩
        (.inr fun _ => ⟨m, (offered_of_not_valid hslaver).mp hoffered⟩)
      · simpa using hleast.1.enabled
      · rintro p hp
        cases hp
        exact ⟨by simpa using hother.1.enabled, fun h => hother.1.ne (congrArg some h.symm)⟩
      · rintro p hp - -
        cases hp
        exact (least_of_not_valid hslaver).mp hleast
      · rintro p hp -
        cases hp
        exact hother
  | masterAlone hmaster hslaver =>
      obtain ⟨m, hm, hon⟩ := hmaster
      exact iff_of_true ⟨fun _ => ⟨m, hm, hon, by simp⟩, fun _ => rfl,
        fun h => absurd h hslaver, by simp, fun p hp hne => absurd hp hne, by simp⟩
        (.inl ⟨m, hm, hon⟩)
  | newSlaver hmaster hslaver q hleast =>
      obtain ⟨m, hm, hon⟩ := hmaster
      refine iff_of_true ⟨fun _ => ⟨m, hm, status_take.trans hon, ?_⟩, fun _ => rfl,
        fun h => absurd h hslaver, by simp, fun p hp hne => absurd hp hne, ?_⟩ (.inl ⟨m, hm, hon⟩)
      · rintro p hp
        cases hp
        exact ⟨status_take.trans hleast.1.enabled, fun h => hleast.1.ne (h ▸ hm)⟩
      · rintro p hp -
        cases hp
        exact hleast
  | moved hmaster hslaver hnone _ =>
      obtain ⟨m, hm, hon⟩ := hslaver
      constructor
      · intro h
        rcases h.slaverKept ⟨m, hm, hon⟩ with heq | ⟨-, -, -, hnot⟩
        · cases heq.trans hm
        · exact .inr fun ⟨p, hp⟩ => absurd hp (hnot p)
      · rintro (h | h)
        · exact absurd h hmaster
        · refine ⟨fun _ => ⟨m, hm, hon, by simp⟩, fun h => absurd h hmaster,
            fun _ => .inr ⟨rfl, rfl, hmaster, fun p hp => ?_⟩, by simp,
            fun p hp _ hne => absurd hp hne, by simp⟩
          obtain ⟨q, hq⟩ := h ⟨p, hp⟩
          exact hnone q hq
  | newMaster hmaster hslaver m hoffered hleast =>
      refine iff_of_true ⟨fun _ => ⟨m, rfl, status_take.trans hleast.1.enabled, fun q hq => ?_⟩,
        fun h => absurd h hmaster, fun _ => .inl rfl, by simp, ?_, fun p hp hne => absurd hp hne⟩
        (.inr fun _ => ⟨m, hoffered⟩)
      · refine ⟨status_take.trans ((valid_iff hq).mp hslaver), ?_⟩
        rintro rfl
        exact hleast.1.ne hq
      · rintro p hp - -
        cases hp
        exact hleast
  | kept hmaster hslaver =>
      obtain ⟨m, hm, hon⟩ := hmaster
      refine iff_of_true ⟨fun _ => ⟨m, hm, hon, fun q hq => ⟨(valid_iff hq).mp hslaver, ?_⟩⟩,
        fun _ => rfl, fun _ => .inl rfl, by simp, fun p hp hne => absurd hp hne,
        fun p hp hne => absurd hp hne⟩ (.inl ⟨m, hm, hon⟩)
      rintro rfl
      exact hnode q hm hq

end ServerEndpointMgr

/-! ## Histories of fail-over -/

namespace Failover

open ServerEndpointMgr

/-- A table and the service nodes of the vehicles, by number. -/
structure State where
  mgr : ServerEndpointMgr
  node : ℕ → ForwardServiceNode

/-- A node is checked, or an endpoint is given another status. -/
inductive Call where
  | check (k : ℕ)
  | setStatus (p : ℕ) (status : ℤ)

def step (s : State) : Call → Option (State × ℤ)
  | .check k =>
      let (mgr, node, ret) := s.mgr.checkSetServiceNode (s.node k)
      some (⟨mgr, Function.update s.node k node⟩, ret)
  | .setStatus p status => some ({ s with mgr := s.mgr.setStatus p status }, 0)

/-- A table with new nodes of any services. -/
def init (mgr : ServerEndpointMgr) (names : ℕ → Bytes × Bytes) : State :=
  ⟨mgr, fun k => .new (names k).1 (names k).2⟩

theorem step_check (s : State) (k : ℕ) : step s (.check k) =
    some (⟨(s.mgr.checkSetServiceNode (s.node k)).1,
      Function.update s.node k (s.mgr.checkSetServiceNode (s.node k)).2.1⟩,
      (s.mgr.checkSetServiceNode (s.node k)).2.2) := rfl

theorem step_distinct {s s' : State} {c : Call} {ret : ℤ} (hstep : step s c = some (s', ret))
    (h : ∀ k, Distinct (s.node k)) (k : ℕ) : Distinct (s'.node k) := by
  cases c with
  | setStatus p status =>
      cases hstep
      exact h k
  | check j =>
      rw [step_check] at hstep
      cases hstep
      simp only [Function.update_apply]
      split_ifs
      · exact (checked s.mgr (s.node j)).distinct (h j)
      · exact h k

/-- **Histories**: after any calls, for any nodes and with any changes of status between them,
a call for a node routes exactly if an endpoint is offered where one is eligible. -/
theorem routed_iff_meets (mgr : ServerEndpointMgr) (names : ℕ → Bytes × Bytes)
    (calls : List Call) {s : State} {rets : List ℤ}
    (h : Machine.run step (init mgr names) calls = some (s, rets)) (k : ℕ) :
    (∀ s' ret, step s (.check k) = some (s', ret) →
      Routed s.mgr (s.node k) s'.mgr (s'.node k) ret) ↔ s.mgr.Meets (s.node k) := by
  have hdist : ∀ k, Distinct (s.node k) :=
    (Machine.run_invariant (I := fun s => ∀ k, Distinct (s.node k)) (Q := fun _ => True)
      (fun s c s' r hstep hs => ⟨step_distinct hstep hs, trivial⟩) h
      (fun k => by simp [Distinct, init, ForwardServiceNode.new])).1
  rw [← (checked s.mgr (s.node k)).routed_iff (hdist k)]
  constructor
  · intro h
    simpa using h _ _ (step_check s k)
  · intro h s' ret hstep
    rw [step_check] at hstep
    cases hstep
    simpa using h

/-- A table with one endpoint of one server. -/
def oneEndpoint (maxVehicleCount : ℤ) (vehCnt : ℕ) : ServerEndpointMgr :=
  ((addServerEndpoint (oneServer maxVehicleCount) .new [1] [2] vehCnt).map Prod.fst).getD .new

/-- A vehicle's endpoint is disabled after a call, and enabled after another. -/
theorem routed_iff_meets_oneEndpoint : ∃ s rets,
    Machine.run step (init (oneEndpoint 10 0) fun _ => ([1], [3]))
      [.check 0, .setStatus 0 0, .check 0, .setStatus 0 1] = some (s, rets) ∧
    ((∀ s' ret, step s (.check 0) = some (s', ret) →
      Routed s.mgr (s.node 0) s'.mgr (s'.node 0) ret) ↔ s.mgr.Meets (s.node 0)) := by
  obtain ⟨⟨s, rets⟩, hrun, -⟩ := Machine.exists_of_any
    (show (Machine.run step (init (oneEndpoint 10 0) fun _ => ([1], [3]))
      [.check 0, .setStatus 0 0, .check 0, .setStatus 0 1]).any (fun p => p.2.length = 4) = true by
      decide +kernel)
  exact ⟨s, rets, hrun, routed_iff_meets _ _ _ hrun 0⟩

/-- A maximum of -1 is 2^64 - 1 as a `size_t`, and 2^32 - 1 is compared with: an endpoint that
registers with 2^32 - 1 vehicles is below the maximum and is not found. -/
theorem not_routed_negative : ∃ s' ret,
    step (init (oneEndpoint (-1) 4294967295) fun _ => ([1], [3])) (.check 0) = some (s', ret) ∧
      ¬ Routed (oneEndpoint (-1) 4294967295) (.new [1] [3]) s'.mgr (s'.node 0) ret := by
  refine ⟨_, _, rfl, fun h => ?_⟩
  refine (h.failed (by decide)).2.2 0 ⟨⟨[1], 18446744073709551615, [0]⟩, ?_⟩
  decide

end Failover

end V2I.Indexing
