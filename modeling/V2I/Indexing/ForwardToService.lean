import Mathlib.Data.List.Induction
import V2I.Indexing.Load
import V2I.Indexing.VehicleMgr
import V2I.Utils.Uri

/-!
# V2I.Indexing.ForwardToService

Which services a message goes to (`forward_arbitrate.cpp`, `forward_to_service`): the rule of its
path lists them, and a node for the value of a service's keyword says which endpoints.
-/

namespace V2I.Indexing

open List

open Uri (UriImpl cstr)

/-! ## the rules -/

/-- `forwork_service_item` with its `inter_change`. -/
structure ServiceItem extends ForworkServiceItem where
  interChange : ℤ

/-- `route_rule_item` with such services. -/
structure RouteRule where
  urlName : Bytes
  services : List ServiceItem

/-- A rule as it stands in the table of a `ForwardArbitrate`. -/
def RouteRule.item (rule : RouteRule) : RouteRuleItem :=
  ⟨rule.urlName, rule.services.map ServiceItem.toForworkServiceItem⟩

/-- `load_service_type`, from the type in the configuration. -/
def loadServiceType (type : Option String) : ℕ :=
  match type with
  | some "all" => serviceTypeForward ||| serviceTypeInternal
  | some "internal" => serviceTypeInternal
  | some "forward" => serviceTypeForward
  | _ => 0

/-- `query_value(key)` -/
def queryValue (u : UriImpl) (key : Bytes) : Bytes :=
  match u.queries.find? fun q => cstr q.key = cstr key with
  | some q => q.value
  | none => []

/-- What `forward_to_service` asks of a uri. -/
def urlOf (u : UriImpl) : Url := ⟨u.fullpath, queryValue u⟩

/-- `find_rule` -/
def findRule (rules : List RouteRule) (urlName : Bytes) : Option RouteRule :=
  rules.find? (·.urlName = urlName)

/-! ## handing a message over -/

/-- A message: the text of the uri in its frame with what it is parsed to, and the content behind
it. -/
structure Message where
  text : Bytes
  addr : UriImpl
  content : Bytes

/-- What goes out: to the master, and to the slave when there is one. -/
structure Sent where
  master : Bytes
  slaver : Option Bytes
  text : Bytes
  content : Bytes
  deriving DecidableEq

/-- `forward::forward_to_service` -/
def sendTo (data : Message) (node : ForwardServiceNode) : Sent :=
  ⟨node.master.identity, node.slaver.endpoint.map fun _ => node.slaver.identity, data.text,
    data.content⟩

/-- `strncpy` of a string with its whole length. -/
def strncpy (s : Bytes) : Bytes := cstr s ++ List.replicate (s.length - (cstr s).length) 0

/-- `"snapshot"` -/
def snapshotName : Bytes := [115, 110, 97, 112, 115, 104, 111, 116]

/-- `handle_internal_change`: the `snapshot` service gets the vehicle's id for its uid. -/
def handleInternalChange (vehicles : VehicleMgr) (item : ServiceItem) (data : Message)
    (node : ForwardServiceNode) : Option Sent :=
  if item.name = snapshotName then
    let vincode := ((vehicles.getVehicleId (queryValue data.addr item.keyword)).2).getD []
    let addr := (Uri.changeQuery data.addr item.keyword vincode).getD data.addr
    let text := Uri.tostring addr
    if text.length = 0 then none else some (sendTo ⟨strncpy text, addr, data.content⟩ node)
  else some (sendTo data node)

/-- How the loop hands a message to the node of a service. -/
def handTo (vehicles : VehicleMgr) (item : ServiceItem) (data : Message)
    (node : ForwardServiceNode) : Option Sent :=
  if item.interChange ≠ 0 then handleInternalChange vehicles item data node
  else some (sendTo data node)

theorem handTo_isSome (vehicles : VehicleMgr) (item : ServiceItem) (data : Message)
    (node : ForwardServiceNode) : (handTo vehicles item data node).isSome := by
  have hne : ∀ u : UriImpl, (Uri.tostring u).length ≠ 0 := by
    intro u
    simp [Uri.tostring]
  unfold handTo handleInternalChange
  split_ifs
  · simp only [hne, if_false, Option.isSome_some]
  all_goals rfl

/-! ## `forward_to_service` -/

/-- The loop over the services of a rule: the endpoints and the nodes, what it has handed over with
the names of the services, and `interval_svc`. -/
structure Pass where
  arb : ForwardArbitrate
  handed : List (Bytes × Sent)
  intervalSvc : ℤ

section

variable (vehicles : VehicleMgr) (data : Message) (urlName : Bytes) (url : UriImpl)

/-- Where the node of a service stands. -/
def keyOf (item : ServiceItem) : NodeKey := (urlName, item.name, queryValue url item.keyword)

/-- A round of the loop behind the count: the endpoints and the nodes, and what the service is
handed. -/
def forwardItem (arb : ForwardArbitrate) (item : ServiceItem) :
    ForwardArbitrate × Option (Bytes × Sent) :=
  if item.type &&& serviceTypeForward = 0 then (arb, none)
  else if (queryValue url item.keyword).length < 1 then (arb, none)
  else
    let key := keyOf urlName url item
    let (mgr, node, ret) := arb.mgr.checkSetServiceNode (arb.getNode key)
    let arb := { arb with mgr := mgr, nodes := arb.nodes.set key node }
    if ret ≠ 0 then (arb, none)
    else (arb, (handTo vehicles item data node).map (item.name, ·))

/-- A round of the loop. -/
def forwardStep (p : Pass) (item : ServiceItem) : Pass :=
  let intervalSvc :=
    if item.type = 0 ∨ item.type ||| serviceTypeInternal ≠ 0 then p.intervalSvc + 1
    else p.intervalSvc
  let (arb, handed) := forwardItem vehicles data urlName url p.arb item
  ⟨arb, p.handed ++ handed.toList, intervalSvc⟩

/-- The loop over the services of a rule. -/
def forwardLoop (arb : ForwardArbitrate) (services : List ServiceItem) : Pass :=
  services.foldl (forwardStep vehicles data urlName url) ⟨arb, [], 0⟩

/-- `forward_to_service`: the endpoints and the nodes left behind with the return value, and what
is handed over. -/
def forwardToService (data : Option Message) (arb : ForwardArbitrate) (rules : List RouteRule) :
    (ForwardArbitrate × ℤ) × List (Bytes × Sent) :=
  match data with
  | none => ((arb, -EBADPARM), [])
  | some data =>
      match getUrlnameFromUri (urlOf url) with
      | none => ((arb, -EBADPARM), [])
      | some urlName =>
          match findRule rules urlName with
          | none => ((arb, -ENOTFOUND), [])
          | some rule =>
              let p := forwardLoop vehicles data urlName url arb rule.services
              ((p.arb, p.intervalSvc), p.handed)

/-! ## what the loop is for -/

/-- A message goes to a service: it has the forward bit, its keyword has a value in the uri, and
there is an endpoint for it. -/
def Goes (arb : ForwardArbitrate) (item : ServiceItem) : Prop :=
  item.type &&& serviceTypeForward ≠ 0 ∧ queryValue url item.keyword ≠ [] ∧
    (arb.mgr.checkSetServiceNode (arb.getNode (keyOf urlName url item))).2.2 = 0

instance (arb : ForwardArbitrate) (item : ServiceItem) : Decidable (Goes urlName url arb item) :=
  inferInstanceAs (Decidable (_ ∧ _ ∧ _))

/-- What a service is handed. -/
def handing (arb : ForwardArbitrate) (item : ServiceItem) : Option (Bytes × Sent) :=
  if Goes urlName url arb item then
    (handTo vehicles item data
      (arb.mgr.checkSetServiceNode (arb.getNode (keyOf urlName url item))).2.1).map (item.name, ·)
  else none

/-- A service that handles its messages locally. -/
def Local (item : ServiceItem) : Prop :=
  item.type = 0 ∨ item.type &&& serviceTypeInternal ≠ 0

instance : DecidablePred Local := fun item => inferInstanceAs (Decidable (item.type = 0 ∨ _))

/-- The message is handed to the services that it goes to, each once and in the order of the list,
with the endpoints as the services before have left them; the result is the number of the services
that handle it locally, so that it is not handled locally when there are none. -/
structure Routes (arb : ForwardArbitrate) (services : List ServiceItem)
    (handed : List (Bytes × Sent)) (ret : ℤ) : Prop where
  names : handed.map Prod.fst = (List.range services.length).filterMap fun i =>
    (services[i]?.filter (Goes urlName url
      (forwardLoop vehicles data urlName url arb (services.take i)).arb)).map (·.name)
  handed : handed = (List.range services.length).filterMap fun i =>
    services[i]?.bind (handing vehicles data urlName url
      (forwardLoop vehicles data urlName url arb (services.take i)).arb)
  count : ret = services.countP Local
  forwardOnly : (∀ item ∈ services, ¬ Local item) → ret = 0

variable {vehicles data urlName url} {arb : ForwardArbitrate} {services : List ServiceItem}

theorem forwardLoop_concat (item : ServiceItem) :
    forwardLoop vehicles data urlName url arb (services ++ [item]) =
      forwardStep vehicles data urlName url (forwardLoop vehicles data urlName url arb services)
        item := by
  rw [forwardLoop, foldl_append]
  rfl

/-! ## the endpoints and the count -/

theorem forwardItem_fst (arb : ForwardArbitrate) (item : ServiceItem) :
    (forwardItem vehicles data urlName url arb item).1 =
      ForwardArbitrate.forwardItem urlName (urlOf url) arb item.toForworkServiceItem := by
  unfold forwardItem ForwardArbitrate.forwardItem
  by_cases hforward : item.type &&& serviceTypeForward = 0
  · rw [if_pos hforward, if_pos hforward]
  by_cases hlen : (queryValue url item.keyword).length < 1
  · rw [if_neg hforward, if_neg hforward, if_pos hlen]
    exact (if_pos hlen).symm
  rw [if_neg hforward, if_neg hforward, if_neg hlen, apply_ite Prod.fst, ite_self]
  exact (if_neg hlen).symm

theorem forwardLoop_arb : (forwardLoop vehicles data urlName url arb services).arb =
    (services.map ServiceItem.toForworkServiceItem).foldl
      (ForwardArbitrate.forwardItem urlName (urlOf url)) arb := by
  induction services using List.reverseRec with
  | nil => rfl
  | append_singleton services item ih =>
      rw [forwardLoop_concat, map_append, foldl_append, ← ih]
      exact forwardItem_fst _ item

/-- What is counted of a service: the test never fails. -/
theorem counted (item : ForworkServiceItem) :
    item.type = 0 ∨ item.type ||| serviceTypeInternal ≠ 0 := by
  refine .inr fun h => ?_
  exact absurd (Nat.or_eq_zero_iff.mp h).2 (by decide)

theorem forwardLoop_count :
    (forwardLoop vehicles data urlName url arb services).intervalSvc = services.length := by
  induction services using List.reverseRec with
  | nil => rfl
  | append_singleton services item ih =>
      have hstep : ∀ p : Pass, (forwardStep vehicles data urlName url p item).intervalSvc =
        p.intervalSvc + 1 := fun p => if_pos (counted item.toForworkServiceItem)
      rw [forwardLoop_concat, hstep, ih, length_append, length_singleton, Nat.cast_add,
        Nat.cast_one]

/-- **To the endpoints** and the nodes the call does what `forwardToService` says, with the same
return value. -/
theorem forwardToService_fst (rules : List RouteRule)
    (harb : arb.ruleList = rules.map RouteRule.item) :
    (forwardToService vehicles url (some data) arb rules).1 = arb.forwardToService (urlOf url) := by
  unfold forwardToService ForwardArbitrate.forwardToService
  cases getUrlnameFromUri (urlOf url) with
  | none => rfl
  | some urlName =>
      have hfind : arb.ruleList.find? (·.urlName = urlName) =
          (findRule rules urlName).map RouteRule.item := by
        rw [harb, find?_map]
        rfl
      simp only [hfind]
      cases findRule rules urlName with
      | none => rfl
      | some rule =>
          have hcount : ForwardArbitrate.intervalSvc (RouteRule.item rule).services =
              rule.services.length := by
            rw [ForwardArbitrate.intervalSvc, filter_eq_self.mpr, RouteRule.item, length_map]
            exact fun item _ => decide_eq_true (counted item)
          simp only [Option.map_some, forwardLoop_arb, forwardLoop_count, hcount]
          rfl

/-! ## the message -/

/-- **A round** hands the message to its service, if it goes there. -/
theorem forwardItem_snd (arb : ForwardArbitrate) (item : ServiceItem) :
    (forwardItem vehicles data urlName url arb item).2 =
      handing vehicles data urlName url arb item := by
  unfold forwardItem handing
  by_cases hforward : item.type &&& serviceTypeForward = 0
  · have hno : ¬ Goes urlName url arb item := fun hgoes => hgoes.1 hforward
    rw [if_pos hforward, if_neg hno]
  rw [if_neg hforward]
  by_cases huid : queryValue url item.keyword = []
  · have hno : ¬ Goes urlName url arb item := fun hgoes => hgoes.2.1 huid
    rw [if_neg hno, huid]
    rfl
  have hlen : ¬ (queryValue url item.keyword).length < 1 := by
    have := length_pos_iff.mpr huid
    omega
  simp only [if_neg hlen]
  by_cases hret : (arb.mgr.checkSetServiceNode (arb.getNode (keyOf urlName url item))).2.2 = 0
  · have hgoes : Goes urlName url arb item := ⟨hforward, huid, hret⟩
    rw [if_neg (not_not.mpr hret), if_pos hgoes]
  · have hno : ¬ Goes urlName url arb item := fun hgoes => hret hgoes.2.2
    rw [if_pos hret, if_neg hno]

theorem forwardStep_handed (p : Pass) (item : ServiceItem) :
    (forwardStep vehicles data urlName url p item).handed =
      p.handed ++ (handing vehicles data urlName url p.arb item).toList := by
  rw [← forwardItem_snd]
  rfl

/-- **The loop** hands the message to the services that it goes to. -/
theorem forwardLoop_handed : (forwardLoop vehicles data urlName url arb services).handed =
    (List.range services.length).filterMap fun i =>
      services[i]?.bind (handing vehicles data urlName url
        (forwardLoop vehicles data urlName url arb (services.take i)).arb) := by
  induction services using List.reverseRec with
  | nil => rfl
  | append_singleton services item ih =>
      rw [forwardLoop_concat, forwardStep_handed, ih, length_append, length_singleton,
        range_succ, filterMap_append]
      congr 1
      · refine filterMap_congr fun i hi => ?_
        have hlt := mem_range.mp hi
        rw [getElem?_append_left hlt, take_append_of_le_length (Nat.le_of_lt hlt)]
      · simp only [filterMap_cons, filterMap_nil, getElem?_concat_length,
          take_left, Option.bind_some]
        cases handing vehicles data urlName url
          (forwardLoop vehicles data urlName url arb services).arb item <;> rfl

/-- Every service that the message goes to is handed something. -/
theorem handing_name (arb : ForwardArbitrate) (item : ServiceItem) :
    (handing vehicles data urlName url arb item).map Prod.fst =
      ((some item).filter (Goes urlName url arb)).map (·.name) := by
  unfold handing
  by_cases hgoes : Goes urlName url arb item
  · obtain ⟨sent, hsent⟩ := Option.isSome_iff_exists.mp (handTo_isSome vehicles item data
      (arb.mgr.checkSetServiceNode (arb.getNode (keyOf urlName url item))).2.1)
    rw [if_pos hgoes, hsent, Option.filter_some, if_pos (decide_eq_true hgoes)]
    rfl
  · rw [if_neg hgoes, Option.filter_some, if_neg (by simpa using hgoes)]
    rfl

theorem forwardLoop_names :
    (forwardLoop vehicles data urlName url arb services).handed.map Prod.fst =
      (List.range services.length).filterMap fun i =>
        (services[i]?.filter (Goes urlName url
          (forwardLoop vehicles data urlName url arb (services.take i)).arb)).map (·.name) := by
  rw [forwardLoop_handed, map_filterMap]
  refine filterMap_congr fun i _ => ?_
  cases services[i]? with
  | none => rfl
  | some item => exact handing_name _ item

/-- **Forwarding is right** exactly for a rule all of whose services handle messages locally. -/
theorem routes_iff (arb : ForwardArbitrate) (rules : List RouteRule) {urlName : Bytes}
    {rule : RouteRule} (hname : getUrlnameFromUri (urlOf url) = some urlName)
    (hrule : findRule rules urlName = some rule) :
    Routes vehicles data urlName url arb rule.services
        (forwardToService vehicles url (some data) arb rules).2
        (forwardToService vehicles url (some data) arb rules).1.2 ↔
      ∀ item ∈ rule.services, Local item := by
  have hrun : forwardToService vehicles url (some data) arb rules =
      (((forwardLoop vehicles data urlName url arb rule.services).arb,
        (forwardLoop vehicles data urlName url arb rule.services).intervalSvc),
        (forwardLoop vehicles data urlName url arb rule.services).handed) := by
    simp only [forwardToService, hname, hrule]
  rw [hrun]
  constructor
  · intro h
    have hcount := h.count
    rw [forwardLoop_count, Nat.cast_inj] at hcount
    have hall := countP_eq_length.mp hcount.symm
    exact fun item hitem => of_decide_eq_true (hall item hitem)
  · intro hall
    have hcount : rule.services.countP (fun item => decide (Local item)) = rule.services.length :=
      countP_eq_length.mpr fun item hitem => decide_eq_true (hall item hitem)
    refine ⟨forwardLoop_names, forwardLoop_handed, ?_, fun hnone => ?_⟩
    · rw [forwardLoop_count, hcount]
    · rw [forwardLoop_count, Nat.cast_eq_zero, length_eq_zero_iff]
      exact eq_nil_iff_forall_not_mem.mpr fun item hitem => hnone item hitem (hall item hitem)

end

/-- `a://h/p?k=1` -/
def pathUri : UriImpl where
  scheme := [97]
  userPasswd := none
  fullpath := [104, 47, 112]
  port := -1
  portStartColon := 0
  filename := some 2
  queries := [⟨[107], [49], false⟩]

/-- A service of a type, for the key `k`. -/
def oneService (type : Option String) : ServiceItem := ⟨⟨[1], [107], loadServiceType type⟩, 0⟩

/-- An endpoint, and a rule for `/p` with one service of a type. -/
def onePath (type : Option String) : ForwardArbitrate :=
  ⟨Failover.oneEndpoint 10 0, [RouteRule.item ⟨[47, 112], [oneService type]⟩], .empty⟩

/-- A message for it. -/
def pathMessage : Message := ⟨Uri.tostring pathUri, pathUri, []⟩

/-- A service of the type `all`, and an endpoint. -/
theorem routes_iff_all :
    Routes .new pathMessage [47, 112] pathUri (onePath (some "all")) [oneService (some "all")]
      (forwardToService .new pathUri (some pathMessage) (onePath (some "all"))
        [⟨[47, 112], [oneService (some "all")]⟩]).2
      (forwardToService .new pathUri (some pathMessage) (onePath (some "all"))
        [⟨[47, 112], [oneService (some "all")]⟩]).1.2 ↔
    ∀ item ∈ [oneService (some "all")], Local item := by
  have hname : getUrlnameFromUri (urlOf pathUri) = some [47, 112] := by decide
  have hrule : findRule [⟨[47, 112], [oneService (some "all")]⟩] [47, 112] =
    some ⟨[47, 112], [oneService (some "all")]⟩ := rfl
  exact routes_iff _ _ hname hrule

/-- A message whose only service is of the type `forward` is to be handled locally as well. -/
theorem not_routes_forward :
    ¬ Routes .new pathMessage [47, 112] pathUri (onePath (some "forward"))
      [oneService (some "forward")]
      (forwardToService .new pathUri (some pathMessage) (onePath (some "forward"))
        [⟨[47, 112], [oneService (some "forward")]⟩]).2
      (forwardToService .new pathUri (some pathMessage) (onePath (some "forward"))
        [⟨[47, 112], [oneService (some "forward")]⟩]).1.2 := by
  intro h
  have hret := h.forwardOnly (by decide)
  exact absurd hret (by decide)

end V2I.Indexing
