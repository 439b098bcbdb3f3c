import V2I.Indexing.ForwardArbitrate
import V2I.Lib.StdMap

/-!
# V2I.Indexing.Load

How many vehicles an endpoint has: `alloc_server_endpoint_to_vehicle` counts a vehicle in, and
nothing counts it out again.

A step of the service conserves, for each endpoint, its count less the slots that refer to it,
up to the slots that the step drops (`Conserved`). So the counts are exact in all states of a run
exactly if no step drops a slot: `exact_iff_keepsLoad`.
-/

namespace V2I.Indexing

open ServerEndpointMgr Machine

/-- `forwork_service_item`, without the tree and the list of its nodes. -/
structure ForworkServiceItem where
  name : Bytes
  keyword : Bytes
  type : ℕ

/-- `route_rule_item` -/
structure RouteRuleItem where
  urlName : Bytes
  services : List ForworkServiceItem

/-- What `forward_to_service` asks of the address of a message. -/
structure Url where
  fullpath : Bytes
  queryValue : Bytes → Bytes

/-- Where a service node stands: the rule, the service and the id of the vehicle. -/
abbrev NodeKey := Bytes × Bytes × Bytes

/-- `forward_arbitrate`. The services of a rule have different names, so the nodes of all
services stand in one map. -/
structure ForwardArbitrate where
  mgr : ServerEndpointMgr
  ruleList : List RouteRuleItem
  nodes : StdMap NodeKey ForwardServiceNode

/-- `service_type_forward` -/
def serviceTypeForward : ℕ := 1

/-- `service_type_internal` -/
def serviceTypeInternal : ℕ := 2

/-- `get_urlname_from_uri`: the path of the address, as a C string, from its first slash. -/
def getUrlnameFromUri (url : Url) : Option Bytes :=
  match (url.fullpath.takeWhile (· ≠ 0)).dropWhile (· ≠ 0x2f) with
  | [] => none
  | name => some name

namespace ForwardArbitrate

variable {arb arb' : ForwardArbitrate}

/-- `find_forward_service_node`, or `add_forward_service_node` where there is none. -/
def getNode (arb : ForwardArbitrate) (key : NodeKey) : ForwardServiceNode :=
  (arb.nodes.find key).getD (.new key.2.1 key.2.2)

/-- What `forward_to_service` does for one service; the message itself, that goes on to the
endpoints of the node, is left out. -/
def forwardItem (urlName : Bytes) (url : Url) (arb : ForwardArbitrate)
    (item : ForworkServiceItem) : ForwardArbitrate :=
  if item.type &&& serviceTypeForward = 0 then arb
  else if (url.queryValue item.keyword).length < 1 then arb
  else
    let key := (urlName, item.name, url.queryValue item.keyword)
    let (mgr, node, _) := arb.mgr.checkSetServiceNode (arb.getNode key)
    { arb with mgr := mgr, nodes := arb.nodes.set key node }

/-- The number of services that `forward_to_service` counts as internal. -/
def intervalSvc (services : List ForworkServiceItem) : ℕ :=
  (services.filter fun item => item.type = 0 ∨ item.type ||| serviceTypeInternal ≠ 0).length

/-- `forward_to_service` -/
def forwardToService (arb : ForwardArbitrate) (url : Url) : ForwardArbitrate × ℤ :=
  match getUrlnameFromUri url with
  | none => (arb, -EBADPARM)
  | some urlName =>
      match arb.ruleList.find? (·.urlName = urlName) with
      | none => (arb, -ENOTFOUND)
      | some rule => (rule.services.foldl (forwardItem urlName url) arb, intervalSvc rule.services)

/-- The service of a rule. -/
def findService (arb : ForwardArbitrate) (urlName svcName : Bytes) : Option ForworkServiceItem :=
  (arb.ruleList.find? (·.urlName = urlName)).bind fun rule =>
    rule.services.find? (·.name = svcName)

/-- `remove_forward_service_node`. It aborts without a service. -/
def removeForwardServiceNode (arb : ForwardArbitrate) (key : NodeKey) :
    Option (ForwardArbitrate × ℤ) :=
  (arb.findService key.1 key.2.1).map fun _ => ({ arb with nodes := arb.nodes.erase key }, 0)

end ForwardArbitrate

/-! ## Slots -/

/-- Whether a slot refers to an endpoint. -/
def held (slot : ServiceEndpoint) (p : ℕ) : ℕ := if slot.endpoint = some p then 1 else 0

/-- The slots of a node that refer to an endpoint. -/
def ForwardServiceNode.slots (p : ℕ) (node : ForwardServiceNode) : ℕ :=
  held node.master p + held node.slaver p

/-- The slots of all nodes that refer to an endpoint. -/
def ForwardArbitrate.slots (arb : ForwardArbitrate) (p : ℕ) : ℕ :=
  (arb.nodes.entries.map fun e => e.2.slots p).sum

theorem held_eq_zero_iff {slot : ServiceEndpoint} :
    (∀ p, held slot p = 0) ↔ slot.endpoint = none := by
  simp [held, Option.eq_none_iff_forall_ne_some]

@[simp] theorem held_none (identity : Bytes) (p : ℕ) : held ⟨none, identity⟩ p = 0 := rfl

theorem held_some (m : ℕ) (identity : Bytes) (p : ℕ) :
    held ⟨some m, identity⟩ p = if p = m then 1 else 0 := by
  simp [held, eq_comm]

variable {node : ForwardServiceNode}

theorem slots_eq_zero_iff : (∀ p, node.slots p = 0) ↔
    node.master.endpoint = none ∧ node.slaver.endpoint = none := by
  rw [← held_eq_zero_iff, ← held_eq_zero_iff, ← forall_and]
  exact forall_congr' fun p => Nat.add_eq_zero_iff

/-- What a step does to the count and the slots of each endpoint: it conserves their difference
but for the slots that it drops. -/
def Conserved (mgr : ServerEndpointMgr) (slots : ℕ → ℕ) (mgr' : ServerEndpointMgr)
    (slots' : ℕ → ℕ) (Keeps : Prop) : Prop :=
  ∃ dropped : ℕ → ℕ, (∀ p, (mgr'.endpoint p).vehCnt + slots p =
    (mgr.endpoint p).vehCnt + slots' p + dropped p) ∧ ((∀ p, dropped p = 0) ↔ Keeps)

theorem Conserved.refl (mgr : ServerEndpointMgr) (slots : ℕ → ℕ) :
    Conserved mgr slots mgr slots True :=
  ⟨fun _ => 0, fun _ => rfl, by simp⟩

variable {mgr : ServerEndpointMgr}

theorem Conserved.trans {mgr' mgr'' : ServerEndpointMgr} {slots slots' slots'' : ℕ → ℕ}
    {Keeps Keeps' : Prop} (h : Conserved mgr slots mgr' slots' Keeps)
    (h' : Conserved mgr' slots' mgr'' slots'' Keeps') :
    Conserved mgr slots mgr'' slots'' (Keeps ∧ Keeps') := by
  obtain ⟨dropped, heq, hzero⟩ := h
  obtain ⟨dropped', heq', hzero'⟩ := h'
  refine ⟨fun p => dropped p + dropped' p, fun p => ?_, ?_⟩
  · have h₁ := heq p
    have h₂ := heq' p
    simp only
    omega
  · rw [← hzero, ← hzero', ← forall_and]
    exact forall_congr' fun p => Nat.add_eq_zero_iff

/-- A call for a node overwrites no slot that refers to an endpoint: the slots that are not valid
are null, but for the slave where no master is found. -/
def KeepsLoad (mgr : ServerEndpointMgr) (node : ForwardServiceNode) : Prop :=
  (¬ mgr.Valid node.master → node.master.endpoint = none) ∧
    (¬ mgr.Valid node.slaver → node.slaver.endpoint = none ∨
      (¬ mgr.Valid node.master ∧ ∀ p, ¬ mgr.Offered node.name none p))

variable {r : ServerEndpointMgr × ForwardServiceNode × ℤ}

/-- **One call** drops the slots that it overwrites. -/
theorem ServerEndpointMgr.Checked.conserved (h : Checked mgr node r) :
    Conserved mgr (node.slots ·) r.1 (r.2.1.slots ·) (KeepsLoad mgr node) := by
  cases h with
  | failed hmaster hslaver hnone =>
      refine ⟨held node.master, fun p => ?_, ?_⟩
      · simp only [ForwardServiceNode.slots, held_none]
        omega
      · simp [held_eq_zero_iff, KeepsLoad, hmaster, hslaver, hnone]
  | alone hmaster hslaver m hoffered hleast =>
      refine ⟨node.slots, fun p => ?_, ?_⟩
      · simp only [ForwardServiceNode.slots, held_none, held_some, vehCnt_take]
        omega
      · simp only [slots_eq_zero_iff, KeepsLoad, hmaster, hslaver, not_false_eq_true, true_imp_iff]
        exact and_congr_right' (or_iff_left fun h => h.2 m hoffered).symm
  | both hmaster hslaver m q hoffered hleast hother =>
      refine ⟨node.slots, fun p => ?_, ?_⟩
      · simp only [ForwardServiceNode.slots, held_some, vehCnt_take]
        omega
      · simp only [slots_eq_zero_iff, KeepsLoad, hmaster, hslaver, not_false_eq_true, true_imp_iff]
        exact and_congr_right' (or_iff_left fun h => h.2 m hoffered).symm
  | masterAlone hmaster hslaver =>
      refine ⟨held node.slaver, fun p => ?_, ?_⟩
      · simp only [ForwardServiceNode.slots, held_none]
        omega
      · simp [held_eq_zero_iff, KeepsLoad, hmaster, hslaver]
  | newSlaver hmaster hslaver q hleast =>
      refine ⟨held node.slaver, fun p => ?_, ?_⟩
      · simp only [ForwardServiceNode.slots, held_some, vehCnt_take]
        omega
      · simp [held_eq_zero_iff, KeepsLoad, hmaster, hslaver]
  | moved hmaster hslaver hnone identity =>
      refine ⟨held node.master, fun p => ?_, ?_⟩
      · have hmoved : held ⟨node.slaver.endpoint, identity⟩ p = held node.slaver p := rfl
        simp only [ForwardServiceNode.slots, held_none, hmoved]
        omega
      · simp [held_eq_zero_iff, KeepsLoad, hmaster, hslaver]
  | newMaster hmaster hslaver m hoffered hleast =>
      refine ⟨held node.master, fun p => ?_, ?_⟩
      · simp only [ForwardServiceNode.slots, held_some, vehCnt_take]
        omega
      · simp [held_eq_zero_iff, KeepsLoad, hmaster, hslaver]
  | kept hmaster hslaver =>
      exact ⟨fun _ => 0, fun _ => rfl, by simp [KeepsLoad, hmaster, hslaver]⟩

/-- The table keeps its items, and an endpoint that is never eligible its count; no slot comes to
refer to it. -/
theorem ServerEndpointMgr.Checked.frame (h : Checked mgr node r) :
    (r.1.serverList = mgr.serverList ∧ r.1.next = mgr.next) ∧
      ∀ p, (∀ other, ¬ mgr.Eligible node.name other p) →
        (r.1.endpoint p).vehCnt = (mgr.endpoint p).vehCnt ∧ r.2.1.slots p ≤ node.slots p := by
  refine ⟨by cases h <;> exact ⟨rfl, rfl⟩, fun p hp => ?_⟩
  have hne : ∀ m other, mgr.Eligible node.name other m → p ≠ m := by
    rintro m other helig rfl
    exact hp other helig
  cases h with
  | failed => simp [ForwardServiceNode.slots]
  | alone _ _ m _ hleast =>
      simp [ForwardServiceNode.slots, held_some, vehCnt_take, hne m _ hleast.1]
  | both _ _ m q _ hleast hother =>
      simp [ForwardServiceNode.slots, held_some, vehCnt_take, hne m _ hleast.1, hne q _ hother.1]
  | masterAlone => simp [ForwardServiceNode.slots]
  | newSlaver _ _ q hleast =>
      simp [ForwardServiceNode.slots, held_some, vehCnt_take, hne q _ hleast.1]
  | moved _ _ _ identity =>
      have hmoved : held ⟨node.slaver.endpoint, identity⟩ p = held node.slaver p := rfl
      simp [ForwardServiceNode.slots, hmoved]
  | newMaster _ _ m _ hleast =>
      simp [ForwardServiceNode.slots, held_some, vehCnt_take, hne m _ hleast.1]
  | kept => exact ⟨rfl, le_rfl⟩

namespace ForwardArbitrate

variable {arb arb' : ForwardArbitrate}

/-- The guard of one service: a call for the node of the vehicle overwrites no endpoint. -/
def ItemKeeps (urlName : Bytes) (url : Url) (arb : ForwardArbitrate)
    (item : ForworkServiceItem) : Prop :=
  item.type &&& serviceTypeForward ≠ 0 → url.queryValue item.keyword ≠ [] →
    KeepsLoad arb.mgr (arb.getNode (urlName, item.name, url.queryValue item.keyword))

/-- The guard of all services of a rule, each in the state that it is made in. -/
def ServicesKeep (urlName : Bytes) (url : Url) : ForwardArbitrate → List ForworkServiceItem → Prop
  | _, [] => True
  | arb, item :: items =>
      ItemKeeps urlName url arb item ∧
        ServicesKeep urlName url (forwardItem urlName url arb item) items

/-- The guard of `forward_to_service`. -/
def ForwardKeeps (arb : ForwardArbitrate) (url : Url) : Prop :=
  ∀ urlName ∈ getUrlnameFromUri url, ∀ rule ∈ arb.ruleList.find? (·.urlName = urlName),
    ServicesKeep urlName url arb rule.services

theorem slots_getNode (arb : ForwardArbitrate) (key : NodeKey) (p : ℕ) :
    (arb.getNode key).slots p = (arb.nodes.find key).elim 0 (ForwardServiceNode.slots p) := by
  rw [getNode]
  cases arb.nodes.find key <;> rfl

/-- A node that is set stands for the one of its key. -/
theorem slots_set (mgr : ServerEndpointMgr) (arb : ForwardArbitrate) (key : NodeKey)
    (node : ForwardServiceNode) (p : ℕ) :
    slots { arb with mgr := mgr, nodes := arb.nodes.set key node } p + (arb.getNode key).slots p =
      arb.slots p + node.slots p := by
  rw [slots_getNode]
  exact arb.nodes.sum_set (ForwardServiceNode.slots p) key node

theorem slots_erase (arb : ForwardArbitrate) (key : NodeKey) (p : ℕ) :
    arb.slots p =
      slots { arb with nodes := arb.nodes.erase key } p + (arb.getNode key).slots p := by
  rw [slots_getNode]
  exact arb.nodes.sum_erase (ForwardServiceNode.slots p) key

theorem forwardItem_conserved (urlName : Bytes) (url : Url) (arb : ForwardArbitrate)
    (item : ForworkServiceItem) :
    Conserved arb.mgr arb.slots (forwardItem urlName url arb item).mgr
      (forwardItem urlName url arb item).slots (ItemKeeps urlName url arb item) := by
  unfold forwardItem ItemKeeps
  split_ifs with htype huid
  · simpa [htype] using Conserved.refl arb.mgr arb.slots
  · have huid : url.queryValue item.keyword = [] := List.length_eq_zero_iff.mp (by omega)
    simpa [huid] using Conserved.refl arb.mgr arb.slots
  · have huid : url.queryValue item.keyword ≠ [] := fun h => huid (by simp [h])
    dsimp only
    generalize (urlName, item.name, url.queryValue item.keyword) = key
    have hchecked := checked arb.mgr (arb.getNode key)
    generalize arb.mgr.checkSetServiceNode (arb.getNode key) = r at hchecked ⊢
    obtain ⟨mgr', node', ret⟩ := r
    obtain ⟨dropped, heq, hzero⟩ := hchecked.conserved
    refine ⟨dropped, fun p => ?_, by simpa [htype, huid] using hzero⟩
    have hsum := slots_set mgr' arb key node' p
    have hnode := heq p
    simp only at hnode ⊢
    omega

/-- The endpoints of the table and of the slots have been made; the others have no vehicles. -/
structure Made (arb : ForwardArbitrate) : Prop where
  table : arb.mgr.Below
  slots : ∀ p, arb.mgr.next ≤ p → arb.slots p = 0
  none : ∀ p, arb.mgr.next ≤ p → (arb.mgr.endpoint p).vehCnt = 0

theorem forwardItem_made (h : arb.Made) (urlName : Bytes) (url : Url) (item : ForworkServiceItem) :
    (forwardItem urlName url arb item).Made ∧
      (forwardItem urlName url arb item).mgr.next = arb.mgr.next := by
  unfold forwardItem
  split_ifs
  · exact ⟨h, rfl⟩
  · exact ⟨h, rfl⟩
  · dsimp only
    generalize (urlName, item.name, url.queryValue item.keyword) = key
    have hchecked := checked arb.mgr (arb.getNode key)
    generalize arb.mgr.checkSetServiceNode (arb.getNode key) = r at hchecked ⊢
    obtain ⟨mgr', node', ret⟩ := r
    obtain ⟨⟨hlist, hnext⟩, hframe⟩ := hchecked.frame
    simp only at hlist hnext hframe
    have hother : ∀ p, arb.mgr.next ≤ p → ∀ other,
        ¬ arb.mgr.Eligible (arb.getNode key).name other p := by
      rintro p hp other ⟨item, hitem, hmem, -⟩
      exact absurd (h.table item (findServerItem_mem hitem) p hmem) (Nat.not_lt.mpr hp)
    refine ⟨⟨fun item hitem p hp => ?_, fun p hp => ?_, fun p hp => ?_⟩, hnext⟩
    · exact (h.table item (hlist ▸ hitem) p hp).trans_eq hnext.symm
    · have hp := hnext.symm.trans_le hp
      have hsum := slots_set mgr' arb key node' p
      have hzero := h.slots p hp
      have hle := (hframe p (hother p hp)).2
      simp only
      omega
    · have hp := hnext.symm.trans_le hp
      exact (hframe p (hother p hp)).1.trans (h.none p hp)

theorem services_made (h : arb.Made) (urlName : Bytes) (url : Url)
    (items : List ForworkServiceItem) : (items.foldl (forwardItem urlName url) arb).Made ∧
      (items.foldl (forwardItem urlName url) arb).mgr.next = arb.mgr.next := by
  induction items generalizing arb with
  | nil => exact ⟨h, rfl⟩
  | cons item items ih =>
      obtain ⟨hmade, hnext⟩ := forwardItem_made h urlName url item
      exact ⟨(ih hmade).1, (ih hmade).2.trans hnext⟩

theorem forwardToService_made (h : arb.Made) (url : Url) : (arb.forwardToService url).1.Made ∧
    (arb.forwardToService url).1.mgr.next = arb.mgr.next := by
  unfold forwardToService
  cases getUrlnameFromUri url with
  | none => exact ⟨h, rfl⟩
  | some urlName =>
      cases hrule : arb.ruleList.find? (·.urlName = urlName) with
      | none => simpa [hrule] using h
      | some rule => simpa [hrule] using services_made h urlName url rule.services

/-- **A message** drops the slots that it overwrites, service by service. -/
theorem services_conserved (urlName : Bytes) (url : Url) (arb : ForwardArbitrate)
    (items : List ForworkServiceItem) :
    Conserved arb.mgr arb.slots (items.foldl (forwardItem urlName url) arb).mgr
      (items.foldl (forwardItem urlName url) arb).slots (ServicesKeep urlName url arb items) := by
  induction items generalizing arb with
  | nil => exact .refl arb.mgr arb.slots
  | cons item items ih => exact (forwardItem_conserved urlName url arb item).trans (ih _)

theorem forwardToService_conserved (arb : ForwardArbitrate) (url : Url) :
    Conserved arb.mgr arb.slots (arb.forwardToService url).1.mgr
      (arb.forwardToService url).1.slots (arb.ForwardKeeps url) := by
  unfold forwardToService ForwardKeeps
  cases hurl : getUrlnameFromUri url with
  | none => simpa using Conserved.refl arb.mgr arb.slots
  | some urlName =>
      cases hrule : arb.ruleList.find? (·.urlName = urlName) with
      | none => simpa [hrule] using Conserved.refl arb.mgr arb.slots
      | some rule => simpa [hrule] using services_conserved urlName url arb rule.services

theorem remove_conserved {key : NodeKey} {ret : ℤ}
    (h : arb.removeForwardServiceNode key = some (arb', ret)) :
    Conserved arb.mgr arb.slots arb'.mgr arb'.slots (∀ node ∈ arb.nodes.find key,
      node.master.endpoint = none ∧ node.slaver.endpoint = none) := by
  obtain ⟨_, -, heq⟩ := Option.map_eq_some_iff.mp h
  cases heq
  refine ⟨fun p => (arb.getNode key).slots p, fun p => ?_, ?_⟩
  · have hsum := arb.slots_erase key p
    simp only
    omega
  · simp only [slots_getNode]
    cases arb.nodes.find key with
    | none => simp
    | some node => simpa using @slots_eq_zero_iff node

end ForwardArbitrate

/-! ## Runs -/

namespace Load

/-- The service, and the count that each endpoint registered with. -/
structure State where
  arb : ForwardArbitrate
  registered : ℕ → ℕ

/-- A server registers, a message comes for a vehicle, a node is removed, or an endpoint is given
another status. -/
inductive Call where
  | register (name identity : Bytes) (vehCnt : ℕ)
  | forward (url : Url)
  | removeNode (key : NodeKey)
  | setStatus (p : ℕ) (status : ℤ)

def step (config : Bytes → Sysconfig) (s : State) : Call → Option (State × ℤ)
  | .register name identity vehCnt =>
      (addServerEndpoint config s.arb.mgr name identity vehCnt).map fun r =>
        (⟨{ s.arb with mgr := r.1 },
          if r.1.next = s.arb.mgr.next then s.registered
          else Function.update s.registered s.arb.mgr.next vehCnt⟩, 0)
  | .forward url => some ({ s with arb := (s.arb.forwardToService url).1 },
      (s.arb.forwardToService url).2)
  | .removeNode key =>
      (s.arb.removeForwardServiceNode key).map fun r => ({ s with arb := r.1 }, r.2)
  | .setStatus p status => some ({ s with arb.mgr := s.arb.mgr.setStatus p status }, 0)

/-- The service before anything has registered, with the rules of the configuration. -/
def init (rules : List RouteRuleItem) : State := ⟨⟨.new, rules, .empty⟩, fun _ => 0⟩

/-- **Load accounting is exact**: each endpoint counts the vehicles that it registered with and
the slots that refer to it. -/
def Exact (s : State) : Prop :=
  ∀ p < s.arb.mgr.next, (s.arb.mgr.endpoint p).vehCnt = s.registered p + s.arb.slots p

/-- The call drops no slot that refers to an endpoint. -/
def Keeps (s : State) : Call → Prop
  | .forward url => s.arb.ForwardKeeps url
  | .removeNode key => ∀ node ∈ s.arb.nodes.find key,
      node.master.endpoint = none ∧ node.slaver.endpoint = none
  | _ => True

/-- What holds in the states of a run so far. -/
structure Inv (s : State) : Prop where
  made : s.arb.Made
  exact : Exact s

theorem inv_init (rules : List RouteRuleItem) : Inv (init rules) where
  made := ⟨by simp [Below, init, ServerEndpointMgr.new], fun _ _ => rfl, fun _ _ => rfl⟩
  exact := fun p hp => absurd hp (Nat.not_lt_zero p)

/-- A step that registers nothing goes on exact if and only if it drops no slot. -/
theorem exact_iff_of_conserved {s : State} (h : Inv s) {arb' : ForwardArbitrate} {P : Prop}
    (hmade : arb'.Made) (hnext : arb'.mgr.next = s.arb.mgr.next)
    (hcons : Conserved s.arb.mgr s.arb.slots arb'.mgr arb'.slots P) :
    Exact { s with arb := arb' } ↔ P := by
  obtain ⟨dropped, heq, hzero⟩ := hcons
  rw [← hzero]
  constructor
  · intro hexact p
    have hp := heq p
    by_cases hmem : p < s.arb.mgr.next
    · have hbefore := h.exact p hmem
      have hafter := hexact p (hmem.trans_eq hnext.symm)
      simp only at hafter
      omega
    · have hmem := Nat.not_lt.mp hmem
      have hbefore := h.made.slots p hmem
      have hcnt := hmade.none p (hnext.trans_le hmem)
      omega
  · intro hdropped p hmem
    have hp := heq p
    have hbefore := h.exact p (hnext ▸ hmem)
    have hdrop := hdropped p
    simp only
    omega

/-- **One step** from an exact state. -/
theorem step_exact {config : Bytes → Sysconfig} {s s' : State} {c : Call} {ret : ℤ} (h : Inv s)
    (hstep : step config s c = some (s', ret)) : s'.arb.Made ∧ (Exact s' ↔ Keeps s c) := by
  cases c with
  | register name identity vehCnt =>
      obtain ⟨⟨mgr', r⟩, hadd, heq⟩ := Option.map_eq_some_iff.mp hstep
      cases heq
      obtain ⟨hbelow, ⟨hend, hnext⟩ | ⟨hend, hnext⟩⟩ := addServerEndpoint_cases hadd h.made.table
      · refine ⟨⟨hbelow, fun p hp => h.made.slots p (hnext ▸ hp), fun p hp => ?_⟩,
          iff_of_true (fun p hp => ?_) trivial⟩
        · exact (congrArg _ (congrFun hend p)).trans (h.made.none p (hnext ▸ hp))
        · simp only [hnext, hend, if_true]
          exact h.exact p (hnext ▸ hp)
      · have hne : mgr'.next ≠ s.arb.mgr.next := by omega
        refine ⟨⟨hbelow, fun p hp => ?_, fun p hp => ?_⟩, iff_of_true (fun p hp => ?_) trivial⟩
        · simp only at hp
          exact h.made.slots p (by omega)
        · simp only [hnext] at hp
          simp only [hend]
          rw [Function.update_of_ne (by omega)]
          exact h.made.none p (by omega)
        · simp only [hnext] at hp
          simp only [hne, hend, if_false, Function.update_apply]
          split_ifs with hp'
          · subst hp'
            have hslots := h.made.slots _ le_rfl
            simp only [ForwardArbitrate.slots] at hslots ⊢
            omega
          · exact h.exact p (by omega)
  | forward url =>
      cases hstep
      obtain ⟨hmade, hnext⟩ := ForwardArbitrate.forwardToService_made h.made url
      exact ⟨hmade, exact_iff_of_conserved h hmade hnext (s.arb.forwardToService_conserved url)⟩
  | removeNode key =>
      obtain ⟨⟨arb', r⟩, hremove, heq⟩ := Option.map_eq_some_iff.mp hstep
      cases heq
      have hcons := ForwardArbitrate.remove_conserved hremove
      obtain ⟨_, -, heq⟩ := Option.map_eq_some_iff.mp hremove
      cases heq
      have hmade : ForwardArbitrate.Made { s.arb with nodes := s.arb.nodes.erase key } :=
        ⟨h.made.table, fun p hp => Nat.eq_zero_of_add_eq_zero_right
          ((s.arb.slots_erase key p).symm.trans (h.made.slots p hp)), h.made.none⟩
      exact ⟨hmade, exact_iff_of_conserved h hmade rfl hcons⟩
  | setStatus p status =>
      cases hstep
      refine ⟨⟨h.made.table, h.made.slots, fun q hq => ?_⟩, iff_of_true (fun q hq => ?_) trivial⟩
      · exact vehCnt_setStatus.trans (h.made.none q hq)
      · exact vehCnt_setStatus.trans (h.exact q hq)

/-- **When the counts are exact**: they are in all states of a run exactly if no step of it drops
a slot that refers to an endpoint. -/
theorem exact_iff_keepsLoad (config : Bytes → Sysconfig) (rules : List RouteRuleItem)
    (calls : List Call) :
    (∀ pre, pre <+: calls → ∀ s rets,
      run (step config) (init rules) pre = some (s, rets) → Exact s) ↔
    Guarded (step config) (fun s c => (step config s c).isSome → Keeps s c) (init rules)
      calls := by
  refine run_iff_guarded (I := Inv) (fun s h => h.exact) ?_ ?_ (inv_init rules)
  · intro s c s' ret h hstep hkeeps
    obtain ⟨hmade, hiff⟩ := step_exact h hstep
    exact ⟨hmade, hiff.mpr hkeeps⟩
  · intro s c s' ret h hstep hkeeps hexact
    exact hkeeps ((step_exact h hstep).2.mp hexact)

/-- A server with one vehicle at most, and one rule. -/
def oneRule : List RouteRuleItem := [⟨[0x2f], [⟨[1], [4], serviceTypeForward⟩]⟩]

/-- The address of a vehicle's messages. -/
def vehicleUrl (uid : Bytes) : Url := ⟨[0x2f], fun _ => uid⟩

/-- The node of a vehicle is removed after a message: the endpoint that it held keeps the vehicle
in its count, and takes no other. -/
theorem not_exact_removed : ∃ s rets,
    run (step (oneServer 1)) (init oneRule)
      [.register [1] [2] 0, .forward (vehicleUrl [3]), .removeNode ([0x2f], [1], [3]),
        .forward (vehicleUrl [5])] = some (s, rets) ∧ ¬ Exact s := by
  obtain ⟨⟨s, rets⟩, hrun, hs⟩ := exists_of_any
    (show (run (step (oneServer 1)) (init oneRule)
      [.register [1] [2] 0, .forward (vehicleUrl [3]), .removeNode ([0x2f], [1], [3]),
        .forward (vehicleUrl [5])]).any (fun p => decide (0 < p.1.arb.mgr.next ∧
          (p.1.arb.mgr.endpoint 0).vehCnt ≠ p.1.registered 0 + p.1.arb.slots 0)) = true by
      decide +kernel)
  obtain ⟨hmem, hne⟩ := of_decide_eq_true hs
  exact ⟨s, rets, hrun, fun h => hne (h 0 hmem)⟩

end Load

end V2I.Indexing
