import V2I.Mware.RpcServer

/-!
# V2I.Mware.RpcServer.Sound

The pointers of the RPC server. As long as no registered service is removed they all lead
somewhere (`Sound`), and every operation on a service that has a host succeeds; what each of them
leaves of the state is said by its `_does` lemma.
-/

namespace V2I.Mware

open List Option Function

/-- The client and the sequence id that a reply to a client goes to. -/
def Output.toClient : Output → Option (EvlClient × UInt32)
  | .reply target seqid ⟨_, .client, _⟩ => some (target, seqid)
  | _ => none

/-- The replies to clients among what the server sends. -/
def clientReplies (outs : List Output) : List (EvlClient × UInt32) :=
  outs.filterMap Output.toClient

@[simp] theorem clientReplies_append (outs outs' : List Output) :
    clientReplies (outs ++ outs') = clientReplies outs ++ clientReplies outs' :=
  filterMap_append

namespace Server

variable {s s' : Server} {p : ℕ} {c : Bytes} {svc svc' : ServerService} {h h' : HostInfo}

/-- The service at an address has this host. -/
def Attached (s : Server) (p : ℕ) (c : Bytes) : Prop :=
  ∃ svc, s.heap p = some svc ∧ svc.hostInfo = some c

/-- Which services there are, and how they and the hosts refer to each other. -/
structure Links where
  tree : Bytes → Bytes → Option ℕ
  next : ℕ
  service : ℕ → Option (Option Bytes × List ℕ)
  host : Bytes → Option (List HostServiceInfo × ℤ)

def links (s : Server) : Links where
  tree := s.serviceInfoTree
  next := s.nextAddress
  service p := (s.heap p).map fun svc => (svc.hostInfo, svc.instList)
  host c := (s.hostInfoTree c).map fun h => (h.serviceList, h.refcnt)

/-- The pointers of the server lead to what they should. A registered service has a host; an
instance need not. -/
structure Sound (s : Server) : Prop where
  service_live : ∀ pkg name p, s.serviceInfoTree pkg name = some p → ∃ c, s.Attached p c
  inst_live : ∀ p svc, s.heap p = some svc → ∀ q ∈ svc.instList, (s.heap q).isSome
  host_live : ∀ p c, s.Attached p c → (s.hostInfoTree c).isSome
  cell_live : ∀ c h, s.hostInfoTree c = some h → ∀ cell ∈ h.serviceList,
    cell.freed = false ∧ s.Attached cell.service c
  wait_live : ∀ c h, s.hostInfoTree c = some h → ∀ w ∈ h.waitHostList, s.Attached w.service c
  fresh : ∀ p, s.nextAddress ≤ p → s.heap p = none

theorem sound_empty : Sound {} where
  service_live := by simp
  inst_live := by simp
  host_live := by simp [Attached]
  cell_live := by simp
  wait_live := by simp
  fresh := by simp

/-! ## the state in parts -/

@[simp] theorem setHost_heap : (s.setHost c h).heap = s.heap := rfl

@[simp] theorem setHost_hostInfoTree_self : (s.setHost c h).hostInfoTree c = some h :=
  Function.update_self c _ _

theorem setHost_hostInfoTree_of_ne {c' : Bytes} (hne : c' ≠ c) :
    (s.setHost c h).hostInfoTree c' = s.hostInfoTree c' :=
  update_of_ne hne _ _

@[simp] theorem setHost_setHost : (s.setHost c h).setHost c h' = s.setHost c h' := by
  simp only [setHost, Function.update_idem]

theorem setHost_eq_self (hc : s.hostInfoTree c = some h) : s.setHost c h = s := by
  rw [setHost, ← hc, update_eq_self]

@[simp] theorem setService_heap_self : (s.setService p svc).heap p = some svc :=
  Function.update_self p _ _

theorem setService_heap_of_ne {q : ℕ} (hne : q ≠ p) : (s.setService p svc).heap q = s.heap q :=
  update_of_ne hne _ _

theorem setService_eq_self (hp : s.heap p = some svc) : s.setService p svc = s := by
  rw [setService, ← hp, update_eq_self]

theorem attached_iff_links : s.Attached p c ↔ ∃ l, s.links.service p = some (some c, l) := by
  simp only [Attached, links, map_eq_some_iff, Prod.mk.injEq]
  constructor
  · rintro ⟨svc, hp, hc⟩
    exact ⟨svc.instList, svc, hp, hc, rfl⟩
  · rintro ⟨l, svc, hp, hc, -⟩
    exact ⟨svc, hp, hc⟩

theorem attached_congr (hl : s'.links = s.links) : s'.Attached p c ↔ s.Attached p c := by
  rw [attached_iff_links, attached_iff_links, hl]

theorem links_setHost (hc : s.hostInfoTree c = some h) (hlist : h'.serviceList = h.serviceList)
    (hcnt : h'.refcnt = h.refcnt) : (s.setHost c h').links = s.links := by
  have hhost : (s.setHost c h').links.host = s.links.host := by
    funext d
    by_cases hd : d = c
    · subst hd
      simp [links, hc, hlist, hcnt]
    · simp only [links, setHost_hostInfoTree_of_ne hd]
  calc
    (s.setHost c h').links = { s.links with host := (s.setHost c h').links.host } := rfl
    _ = s.links := by rw [hhost]

theorem links_setService (hp : s.heap p = some svc) (svc' : ServerService)
    (hhost : svc'.hostInfo = svc.hostInfo) (hinst : svc'.instList = svc.instList) :
    (s.setService p svc').links = s.links := by
  have hservice : (s.setService p svc').links.service = s.links.service := by
    funext q
    by_cases hq : q = p
    · subst hq
      simp [links, hp, hhost, hinst]
    · simp only [links, setService_heap_of_ne hq]
  calc
    (s.setService p svc').links =
        { s.links with service := (s.setService p svc').links.service } := rfl
    _ = s.links := by rw [hservice]

namespace Sound

/-- What keeps the links, and the waiting cells of services that are attached, keeps the
pointers sound. -/
theorem of_links (hs : Sound s) (hl : s'.links = s.links)
    (hw : ∀ c h, s'.hostInfoTree c = some h → ∀ w ∈ h.waitHostList, s.Attached w.service c) :
    Sound s' := by
  have hnext : s'.nextAddress = s.nextAddress := congrArg Links.next hl
  have htree : s'.serviceInfoTree = s.serviceInfoTree := congrArg Links.tree hl
  have hheap : ∀ q, (s'.heap q).map (fun svc => (svc.hostInfo, svc.instList)) =
      (s.heap q).map fun svc => (svc.hostInfo, svc.instList) :=
    fun q => congrFun (congrArg Links.service hl) q
  have hhost : ∀ d, (s'.hostInfoTree d).map (fun h => (h.serviceList, h.refcnt)) =
      (s.hostInfoTree d).map fun h => (h.serviceList, h.refcnt) :=
    fun d => congrFun (congrArg Links.host hl) d
  constructor
  · intro pkg name q hq
    obtain ⟨d, hd⟩ := hs.service_live pkg name q (htree ▸ hq)
    exact ⟨d, (attached_congr hl).mpr hd⟩
  · intro q svc hq r hr
    have hsome := hheap q
    rw [hq, map_some] at hsome
    obtain ⟨svc₀, hq₀, heq⟩ := map_eq_some_iff.mp hsome.symm
    have hlive := hs.inst_live q svc₀ hq₀ r ((Prod.mk.inj heq).2 ▸ hr)
    rw [← isSome_map, hheap r, isSome_map]
    exact hlive
  · intro q d hqd
    rw [← isSome_map, hhost d, isSome_map]
    exact hs.host_live q d ((attached_congr hl).mp hqd)
  · intro d h hd cell hcell
    have hsome := hhost d
    rw [hd, map_some] at hsome
    obtain ⟨h₀, hd₀, heq⟩ := map_eq_some_iff.mp hsome.symm
    obtain ⟨hfree, hatt⟩ := hs.cell_live d h₀ hd₀ cell ((Prod.mk.inj heq).1 ▸ hcell)
    exact ⟨hfree, (attached_congr hl).mpr hatt⟩
  · exact fun d h hd w hmem => (attached_congr hl).mpr (hw d h hd w hmem)
  · intro q hq
    rw [← map_eq_none_iff, hheap q, map_eq_none_iff]
    exact hs.fresh q (hnext ▸ hq)

theorem setHost (hs : Sound s) (hc : s.hostInfoTree c = some h)
    (hlist : h'.serviceList = h.serviceList) (hcnt : h'.refcnt = h.refcnt)
    (hw : ∀ w ∈ h'.waitHostList, s.Attached w.service c) : Sound (s.setHost c h') := by
  refine hs.of_links (links_setHost hc hlist hcnt) fun d k hd w hmem => ?_
  by_cases hdc : d = c
  · subst hdc
    rw [setHost_hostInfoTree_self] at hd
    cases hd
    exact hw w hmem
  · rw [setHost_hostInfoTree_of_ne hdc] at hd
    exact hs.wait_live d k hd w hmem

theorem setService (hs : Sound s) (hp : s.heap p = some svc) (svc' : ServerService)
    (hhost : svc'.hostInfo = svc.hostInfo) (hinst : svc'.instList = svc.instList) :
    Sound (s.setService p svc') :=
  hs.of_links (links_setService hp svc' hhost hinst) hs.wait_live

/-- The host of an attached service. -/
theorem exists_host (hs : Sound s) (hp : s.heap p = some svc) (hc : svc.hostInfo = some c) :
    ∃ h, s.hostInfoTree c = some h :=
  isSome_iff_exists.mp (hs.host_live p c ⟨svc, hp, hc⟩)

end Sound

/-! ## operations on a service and on a host -/

/-- A host whose services and references are as they were, and where none waits that did not,
or is the service at `p`. -/
structure HostKept (p : ℕ) (h h' : HostInfo) : Prop where
  serviceList : h'.serviceList = h.serviceList
  refcnt : h'.refcnt = h.refcnt
  wait : ∀ w ∈ h'.waitHostList, w ∈ h.waitHostList ∨ w.service = p

theorem Sound.setHost_of_kept (hs : Sound s) (hc : s.hostInfoTree c = some h)
    (hp : s.Attached p c) (hk : HostKept p h h') : Sound (s.setHost c h') := by
  refine hs.setHost hc hk.serviceList hk.refcnt fun w hw => ?_
  rcases hk.wait w hw with hold | hnew
  · exact hs.wait_live c h hc w hold
  · rwa [hnew]

theorem requestContainer_does (hs : Sound s) (hp : s.Attached p c) (e : Environment)
    (t : ServiceRequestType) :
    ∃ outs ret, ServerService.requestContainer s e p t = some (outs, ret) ∧
      clientReplies outs = [] := by
  obtain ⟨svc, hp, hc⟩ := hp
  obtain ⟨h, hh⟩ := hs.exists_host hp hc
  simp only [ServerService.requestContainer, hp, hostOf, hc, hh, Option.bind_eq_bind,
    Option.bind_some]
  cases h.evlclient with
  | none => exact ⟨[], -EBADOBJ, rfl, rfl⟩
  | some cli => exact ⟨[.request cli t svc.loadInfo.1], e.answered, rfl, rfl⟩

theorem addWaitContainerStart_kept (startcb : Bool) :
    HostKept p h (h.addWaitContainerStart p startcb).1 := by
  rw [HostInfo.addWaitContainerStart]
  split
  · exact ⟨rfl, rfl, fun w hw => .inl hw⟩
  · refine ⟨rfl, rfl, fun w hw => ?_⟩
    rcases mem_append.mp hw with hold | hnew
    · exact .inl hold
    · exact .inr (by rw [mem_singleton.mp hnew])

/-- Launching a service changes its host alone. -/
theorem launchService_does (hs : Sound s) (hp : s.Attached p c) (hc : s.hostInfoTree c = some h)
    (e : Environment) (startcb : Bool) :
    ∃ h' outs ret, ServerService.launchService s e p startcb = some (s.setHost c h', outs, ret) ∧
      HostKept p h h' ∧ clientReplies outs = [] := by
  have hself : s = s.setHost c h := (setHost_eq_self hc).symm
  have hkept : HostKept p h h := ⟨rfl, rfl, fun w hw => .inl hw⟩
  obtain ⟨outs, ret, hreq, hnone⟩ :=
    requestContainer_does hs hp e (ServerService.startType startcb)
  obtain ⟨svc, hp, hsvc⟩ := hp
  simp only [ServerService.launchService, hp, hsvc, hc, Option.bind_eq_bind, Option.bind_some]
  split
  · rw [hreq]
    exact ⟨h, outs, ret, by rw [← hself]; rfl, hkept, hnone⟩
  split
  · exact ⟨_, [], 0, rfl, addWaitContainerStart_kept startcb, rfl⟩
  split
  · exact ⟨h, [], -EBADPARM, by rw [← hself]; rfl, hkept, rfl⟩
  split
  · exact ⟨_, _, e.notified, rfl, ⟨rfl, rfl, fun w hw => .inl hw⟩, rfl⟩
  · exact ⟨h, [], -ENOTAVAIL, by rw [← hself]; rfl, hkept, rfl⟩

theorem requestWaiting_does (hs : Sound s) (e : Environment) (ws : List WaitHostService)
    (hw : ∀ w ∈ ws, s.Attached w.service c) :
    ∃ outs, HostInfo.requestWaiting s e ws = some outs ∧ clientReplies outs = [] := by
  induction ws with
  | nil => exact ⟨[], rfl, rfl⟩
  | cons w ws ih =>
      obtain ⟨hw, hws⟩ := forall_mem_cons.mp hw
      obtain ⟨out, ret, hreq, hnone⟩ :=
        requestContainer_does hs hw e (ServerService.startType w.startcb)
      obtain ⟨outs, hrest, hnone'⟩ := ih hws
      refine ⟨out ++ outs, ?_, by rw [clientReplies_append, hnone, hnone', append_nil]⟩
      simp only [HostInfo.requestWaiting, hreq, hrest, Option.bind_eq_bind, Option.bind_some]
      rfl

/-- A host that starts to run asks for its waiting services. -/
theorem hostSetRunning_does (hs : Sound s) (hc : s.hostInfoTree c = some h) (e : Environment)
    (brun : Bool) (p : ℕ) :
    ∃ h' outs, HostInfo.setRunning s e c brun = some (s.setHost c h', outs) ∧
      HostKept p h h' ∧ clientReplies outs = [] := by
  simp only [HostInfo.setRunning, hc, Option.bind_eq_bind, Option.bind_some]
  split
  · have hrun : Sound (s.setHost c { h with running := true }) :=
      hs.setHost hc rfl rfl (hs.wait_live c h hc)
    obtain ⟨outs, hreq, hnone⟩ := requestWaiting_does hrun e h.waitHostList
      fun w hw => hs.wait_live c h hc w hw
    rw [hreq, Option.bind_some, setHost_setHost]
    exact ⟨{ h with running := true, waitHostList := [] }, outs, rfl, ⟨rfl, rfl, by simp⟩, hnone⟩
  · exact ⟨{ h with running := brun }, [], rfl, ⟨rfl, rfl, fun w hw => .inl hw⟩, rfl⟩

end Server

namespace ServerService

/-- A service that was set running, under a new id. -/
def started (svc : ServerService) (id : UInt32) : ServerService :=
  { svc with
    flags := { svc.flags with starting := true, running := true }
    serviceId := id
    serviceLnrList := [] }

/-- A service that was set not to run. -/
def stopped (svc : ServerService) : ServerService :=
  { svc with
    flags := { svc.flags with starting := false, running := false }
    serviceId := 0 }

/-- The requests that wait for the service to run. -/
def waiting (svc : ServerService) : List (EvlClient × UInt32) :=
  svc.serviceLnrList.map fun lnr => (lnr.lnrClient, lnr.seqid)

end ServerService

namespace Server

variable {s s' : Server} {p : ℕ} {c : Bytes} {svc svc' : ServerService} {h h' : HostInfo}
  {pkgname servicename : Bytes}

theorem sendServiceStartReply_does (hrun : svc.isRunning = true) (hsvc : svc.hostInfo = some c)
    (hc : s.hostInfoTree c = some h) (sender : EvlClient) (seqid : UInt32) :
    ∃ outs, ServerService.sendServiceStartReply s svc sender seqid = some (outs, 0) ∧
      clientReplies outs = [(sender, seqid)] := by
  simp only [ServerService.sendServiceStartReply, hrun, Bool.not_true, Bool.false_eq_true,
    if_false, hsvc, hc, Option.bind_eq_bind, Option.bind_some]
  exact ⟨_, rfl, rfl⟩

theorem sendStartReplies_does (svc : ServerService) (hrun : svc.isRunning = true)
    (hsvc : svc.hostInfo = some c) (hc : s.hostInfoTree c = some h) (lnrs : List ServiceStartLnr) :
    ∃ outs, ServerService.sendStartReplies s svc lnrs = some outs ∧
      clientReplies outs = lnrs.map fun lnr => (lnr.lnrClient, lnr.seqid) := by
  induction lnrs with
  | nil => exact ⟨[], rfl, rfl⟩
  | cons lnr lnrs ih =>
      obtain ⟨out, hsend, hout⟩ :=
        sendServiceStartReply_does hrun hsvc hc lnr.lnrClient lnr.seqid
      obtain ⟨outs, hrest, houts⟩ := ih
      refine ⟨out ++ outs, ?_, by rw [clientReplies_append, hout, houts]; rfl⟩
      simp only [ServerService.sendStartReplies, hsend, hrest, Option.bind_eq_bind,
        Option.bind_some]
      rfl

theorem setRunning_false (hp : s.heap p = some svc) :
    ServerService.setRunning s p false = some (s.setService p svc.stopped, [], 0) := by
  simp only [ServerService.setRunning, hp, Option.bind_eq_bind, Option.bind_some,
    Bool.false_and, Bool.false_eq_true, if_false]
  rfl

/-- A service that has an id stays as it is, another one starts and answers the requests that
wait for it. -/
theorem setRunning_true_does (hp : s.heap p = some svc) (hsvc : svc.hostInfo = some c)
    (hc : s.hostInfoTree c = some h) :
    ∃ svc' n outs ret,
      ServerService.setRunning s p true =
        some ({ s.setService p svc' with serviceCnt := n }, outs, ret) ∧
      (svc.serviceId ≠ 0 ∧ svc' = svc ∧ clientReplies outs = [] ∨
        svc.serviceId = 0 ∧ svc' = svc.started n ∧ clientReplies outs = svc.waiting) := by
  simp only [ServerService.setRunning, hp, Option.bind_eq_bind, Option.bind_some, Bool.true_and,
    if_true]
  by_cases hid : svc.serviceId = 0
  · simp only [hid, bne_self_eq_false, Bool.false_eq_true, if_false]
    obtain ⟨outs, hsend, houts⟩ := sendStartReplies_does (s := s)
      { svc with
        flags := { svc.flags with starting := true, running := true }
        serviceId := s.serviceCnt + 1 } rfl hsvc hc svc.serviceLnrList
    rw [hsend]
    exact ⟨svc.started (s.serviceCnt + 1), s.serviceCnt + 1, outs, 0, rfl,
      .inr ⟨trivial, rfl, houts⟩⟩
  · simp only [bne_iff_ne.mpr hid, if_true]
    refine ⟨svc, s.serviceCnt, [], -EEXISTS, ?_, .inl ⟨hid, rfl, rfl⟩⟩
    rw [setService_eq_self hp]
    rfl

theorem Sound.setServiceCnt (hs : Sound s) (n : UInt32) : Sound { s with serviceCnt := n } :=
  ⟨hs.service_live, hs.inst_live, hs.host_live, hs.cell_live, hs.wait_live, hs.fresh⟩

/-! ## adding a service -/

/-- A new default service, with its host. -/
def newHosted (s : Server) (info : ServiceInfo) : Server :=
  let svc : ServerService := { toServiceInfo := info }
  let h := (s.hostInfoTree svc.container).getD svc.newHost
  { s with
    heap := update s.heap s.nextAddress
      (some { svc with hostInfo := some svc.container })
    hostInfoTree := update s.hostInfoTree svc.container
      (some { h with
        serviceList := h.serviceList ++ [⟨s.nextAddress, false⟩]
        refcnt := h.refcnt + 1 })
    nextAddress := s.nextAddress + 1 }

/-- A new default service in the tree. -/
def register (s : Server) (pkgname servicename : Bytes) (info : ServiceInfo) : Server :=
  { s.newHosted info with
    serviceInfoTree := update s.serviceInfoTree pkgname
      (update (s.serviceInfoTree pkgname) servicename (some s.nextAddress)) }

/-- A new instance of the service at an address. -/
def withInstance (s : Server) (p : ℕ) (svc : ServerService) (inst : ServiceInfo) : Server :=
  (s.newService inst).1.setService p { svc with instList := svc.instList ++ [s.nextAddress] }

/-- Whether the service at an address takes a new instance. -/
def admits (s : Server) (p : ℕ) (inst : ServiceInfo) : Bool :=
  (s.findInst p inst.instName).isNone &&
    (s.heap p).any fun svc => svc.isDefaultService && svc.checkMultiInstance

theorem addInstance_eq (hp : s.heap p = some svc) (inst : ServiceInfo) :
    s.addInstance p inst =
      if s.admits p inst then some (s.withInstance p svc inst, some s.nextAddress)
      else some (s, none) := by
  simp only [addInstance, admits, hp, Option.bind_eq_bind, Option.bind_some, any_some]
  cases s.findInst p inst.instName with
  | some q => rfl
  | none =>
      cases svc.isDefaultService <;> cases svc.checkMultiInstance <;> rfl

theorem findHostService_eq_false {cells : List HostServiceInfo}
    (h : ∀ cell ∈ cells, cell.freed = false ∧ cell.service ≠ p) :
    HostInfo.findHostService cells p = some false := by
  induction cells with
  | nil => rfl
  | cons cell cells ih =>
      obtain ⟨⟨hfree, hne⟩, hcells⟩ := forall_mem_cons.mp h
      rw [HostInfo.findHostService, hfree, if_neg Bool.false_ne_true, if_neg hne, ih hcells]

theorem Attached.lt (hs : Sound s) (hp : s.Attached p c) : p < s.nextAddress := by
  obtain ⟨svc, hp, -⟩ := hp
  by_contra hle
  rw [hs.fresh p (Nat.le_of_not_lt hle)] at hp
  cases hp

/-- The services a host has, or a new one. -/
theorem Sound.cells_of_getD (hs : Sound s) {d : HostInfo} (hd : d.serviceList = []) :
    ∀ cell ∈ ((s.hostInfoTree c).getD d).serviceList,
      cell.freed = false ∧ s.Attached cell.service c := by
  cases hc : s.hostInfoTree c with
  | none => simp [hd]
  | some h => exact hs.cell_live c h hc

theorem newHost_serviceList (svc : ServerService) : svc.newHost.serviceList = [] := by
  rw [ServerService.newHost]
  split <;> rfl

theorem newHost_waitHostList (svc : ServerService) : svc.newHost.waitHostList = [] := by
  rw [ServerService.newHost]
  split <;> rfl

theorem newHost_refcnt (svc : ServerService) : svc.newHost.refcnt = 0 := by
  rw [ServerService.newHost]
  split <;> rfl

theorem addService_of_find (hp : s.serviceInfoTree pkgname servicename = some p)
    (hsvc : s.heap p = some svc) (instName executive ipaddr : Option Bytes)
    (port version : UInt32) (attributes : Flags) :
    s.addService pkgname servicename instName executive ipaddr port version attributes =
      let inst := ServiceInfo.new pkgname servicename instName executive ipaddr port version
        attributes
      if !inst.instName.isEmpty && s.admits p inst then
        some (s.withInstance p svc inst, some s.nextAddress)
      else some (s, none) := by
  simp only [addService, findService, hp]
  split
  · rename_i hempty
    rw [hempty]
    rfl
  · rename_i hempty
    rw [addInstance_eq hsvc, Bool.eq_false_iff.mpr hempty]
    rfl

variable (info : ServiceInfo)

theorem register_heap_self :
    (s.register pkgname servicename info).heap s.nextAddress =
      some { toServiceInfo := info
             hostInfo := some ({ toServiceInfo := info : ServerService }).container } :=
  Function.update_self s.nextAddress _ _

variable {q : ℕ}

theorem register_heap_of_ne (hq : q ≠ s.nextAddress) :
    (s.register pkgname servicename info).heap q = s.heap q :=
  update_of_ne hq _ _

theorem attachHost_newService (hs : Sound s) (info : ServiceInfo) :
    ServerService.attachHost (s.newService info).1 s.nextAddress = some (s.newHosted info) := by
  have hfind : ∀ (c : Bytes) (svc : ServerService),
      HostInfo.findHostService ((s.hostInfoTree c).getD svc.newHost).serviceList s.nextAddress =
        some false :=
    fun c svc => findHostService_eq_false fun cell hcell =>
      have hcell := hs.cells_of_getD (newHost_serviceList svc) cell hcell
      ⟨hcell.1, Nat.ne_of_lt (hcell.2.lt hs)⟩
  simp only [ServerService.attachHost, HostInfo.attachService, hfind, Option.bind_eq_bind,
    Option.bind_some, Option.pure_def, newService, setHost, setService, Function.update_idem,
    Function.update_self, newHosted]

theorem addService_of_find_none (hs : Sound s) (hp : s.serviceInfoTree pkgname servicename = none)
    (instName executive ipaddr : Option Bytes) (port version : UInt32) (attributes : Flags) :
    s.addService pkgname servicename instName executive ipaddr port version attributes =
      let inst := ServiceInfo.new pkgname servicename instName executive ipaddr port version
        attributes
      let info := ServiceInfo.new pkgname servicename none executive ipaddr port version
        attributes
      let svc : ServerService := { toServiceInfo := info }
      if inst.instName.isEmpty then
        some (s.register pkgname servicename info, some s.nextAddress)
      else if inst.checkMultiInstance then
        some ((s.register pkgname servicename info).withInstance s.nextAddress
          { svc with hostInfo := some svc.container } inst, some (s.nextAddress + 1))
      else some (s.register pkgname servicename info, none) := by
  have hattach := attachHost_newService hs
    (.new pkgname servicename none executive ipaddr port version attributes)
  have hnew : (s.newService
      (.new pkgname servicename none executive ipaddr port version attributes)).2 =
      s.nextAddress := rfl
  simp only [addService, findService, hp, hnew, hattach, Option.bind_eq_bind, Option.bind_some]
  split
  · rfl
  · refine (addInstance_eq (register_heap_self _) _).trans ?_
    rw [admits, findInst, register_heap_self]
    simp only [find?_nil, isNone_none, Bool.true_and, any_some]
    rfl

theorem attached_register_iff (hs : Sound s) (info : ServiceInfo) :
    (s.register pkgname servicename info).Attached p c ↔
      p = s.nextAddress ∧ c = ({ toServiceInfo := info } : ServerService).container ∨
        s.Attached p c := by
  by_cases hp : p = s.nextAddress
  · subst hp
    have hnot : ¬ s.Attached s.nextAddress c := fun hatt => Nat.lt_irrefl _ (hatt.lt hs)
    simp only [Attached, register_heap_self, some.injEq, exists_eq_left', true_and]
    constructor
    · exact fun heq => .inl heq.symm
    · rintro (heq | hatt)
      · exact heq.symm
      · exact absurd hatt hnot
  · simp only [Attached, register_heap_of_ne info hp, hp, false_and, false_or]

theorem isSome_register (h : (s.heap p).isSome) :
    ((s.register pkgname servicename info).heap p).isSome := by
  by_cases hp : p = s.nextAddress
  · rw [hp, register_heap_self]
    rfl
  · rwa [register_heap_of_ne info hp]

/-- The host of a new service, and the other hosts. -/
theorem register_hostInfoTree_self :
    (s.register pkgname servicename info).hostInfoTree
        ({ toServiceInfo := info } : ServerService).container =
      some
        { (s.hostInfoTree ({ toServiceInfo := info } : ServerService).container).getD
            ({ toServiceInfo := info } : ServerService).newHost with
          serviceList :=
            ((s.hostInfoTree ({ toServiceInfo := info } : ServerService).container).getD
              ({ toServiceInfo := info } : ServerService).newHost).serviceList ++
                [⟨s.nextAddress, false⟩]
          refcnt :=
            ((s.hostInfoTree ({ toServiceInfo := info } : ServerService).container).getD
              ({ toServiceInfo := info } : ServerService).newHost).refcnt + 1 } :=
  Function.update_self _ _ _

theorem register_hostInfoTree_of_ne (hc : c ≠ ({ toServiceInfo := info } : ServerService).container)
    : (s.register pkgname servicename info).hostInfoTree c = s.hostInfoTree c :=
  update_of_ne hc _ _

theorem register_serviceInfoTree_cases {info : ServiceInfo} {pkg name : Bytes}
    (hq : (s.register pkgname servicename info).serviceInfoTree pkg name = some q) :
    q = s.nextAddress ∨ s.serviceInfoTree pkg name = some q := by
  simp only [register] at hq
  by_cases hpkg : pkg = pkgname
  · subst hpkg
    rw [Function.update_self] at hq
    by_cases hname : name = servicename
    · subst hname
      rw [Function.update_self] at hq
      exact .inl (some.inj hq).symm
    · rw [update_of_ne hname] at hq
      exact .inr hq
  · rw [update_of_ne hpkg] at hq
    exact .inr hq

theorem Sound.register (hs : Sound s) (info : ServiceInfo) :
    Sound (s.register pkgname servicename info) where
  service_live := by
    intro pkg name q hq
    rcases register_serviceInfoTree_cases hq with hnew | hold
    · exact ⟨_, (attached_register_iff hs info).mpr (.inl ⟨hnew, rfl⟩)⟩
    · obtain ⟨d, hd⟩ := hs.service_live pkg name q hold
      exact ⟨d, (attached_register_iff hs info).mpr (.inr hd)⟩
  inst_live := by
    intro q v hq r hr
    by_cases hnew : q = s.nextAddress
    · subst hnew
      rw [register_heap_self] at hq
      cases hq
      cases hr
    · rw [register_heap_of_ne info hnew] at hq
      exact isSome_register info (hs.inst_live q v hq r hr)
  host_live := by
    intro q d hq
    by_cases hd : d = ({ toServiceInfo := info } : ServerService).container
    · rw [hd, register_hostInfoTree_self]
      rfl
    · rw [register_hostInfoTree_of_ne info hd]
      rcases (attached_register_iff hs info).mp hq with ⟨-, heq⟩ | hold
      · exact absurd heq hd
      · exact hs.host_live q d hold
  cell_live := by
    intro d k hk cell hcell
    by_cases hd : d = ({ toServiceInfo := info } : ServerService).container
    · subst hd
      rw [register_hostInfoTree_self] at hk
      cases hk
      rcases mem_append.mp hcell with hold | hnew
      · obtain ⟨hfree, hatt⟩ := hs.cells_of_getD (newHost_serviceList _) cell hold
        exact ⟨hfree, (attached_register_iff hs info).mpr (.inr hatt)⟩
      · rw [mem_singleton.mp hnew]
        exact ⟨rfl, (attached_register_iff hs info).mpr (.inl ⟨rfl, rfl⟩)⟩
    · rw [register_hostInfoTree_of_ne info hd] at hk
      obtain ⟨hfree, hatt⟩ := hs.cell_live d k hk cell hcell
      exact ⟨hfree, (attached_register_iff hs info).mpr (.inr hatt)⟩
  wait_live := by
    intro d k hk w hw
    refine (attached_register_iff hs info).mpr (.inr ?_)
    by_cases hd : d = ({ toServiceInfo := info } : ServerService).container
    · subst hd
      rw [register_hostInfoTree_self] at hk
      cases hk
      cases hold : s.hostInfoTree ({ toServiceInfo := info } : ServerService).container with
      | none =>
          rw [hold, getD_none, newHost_waitHostList] at hw
          cases hw
      | some k =>
          rw [hold, getD_some] at hw
          exact hs.wait_live _ k hold w hw
    · rw [register_hostInfoTree_of_ne info hd] at hk
      exact hs.wait_live d k hk w hw
  fresh := by
    intro q hq
    have hlt : s.nextAddress < q := hq
    rw [register_heap_of_ne info (Nat.ne_of_gt hlt)]
    exact hs.fresh q (Nat.le_of_lt hlt)

variable (inst : ServiceInfo)

theorem withInstance_heap_self :
    (s.withInstance p svc inst).heap p =
      some { svc with instList := svc.instList ++ [s.nextAddress] } :=
  Function.update_self p _ _

theorem withInstance_heap_new (hp : p ≠ s.nextAddress) :
    (s.withInstance p svc inst).heap s.nextAddress = some { toServiceInfo := inst } := by
  rw [withInstance, setService_heap_of_ne (Ne.symm hp)]
  exact Function.update_self _ _ _

theorem withInstance_heap_of_ne (hp : q ≠ p) (hq : q ≠ s.nextAddress) :
    (s.withInstance p svc inst).heap q = s.heap q := by
  rw [withInstance, setService_heap_of_ne hp]
  exact update_of_ne hq _ _

theorem Sound.ne_nextAddress (hs : Sound s) (hp : s.heap p = some svc) : p ≠ s.nextAddress := by
  rintro rfl
  rw [hs.fresh _ (Nat.le_refl _)] at hp
  cases hp

theorem attached_withInstance_iff (hs : Sound s) (hp : s.heap p = some svc) (inst : ServiceInfo) :
    (s.withInstance p svc inst).Attached q c ↔ s.Attached q c := by
  by_cases hqp : q = p
  · subst hqp
    simp only [Attached, withInstance_heap_self, hp, some.injEq, exists_eq_left']
  by_cases hnew : q = s.nextAddress
  · subst hnew
    simp only [Attached, withInstance_heap_new inst (Ne.symm hqp), hs.fresh _ (Nat.le_refl _),
      some.injEq, exists_eq_left', reduceCtorEq, false_and, exists_false]
  · simp only [Attached, withInstance_heap_of_ne inst hqp hnew]

theorem Sound.withInstance (hs : Sound s) (hp : s.heap p = some svc) (inst : ServiceInfo) :
    Sound (s.withInstance p svc inst) where
  service_live := by
    intro pkg name q hq
    obtain ⟨d, hd⟩ := hs.service_live pkg name q hq
    exact ⟨d, (attached_withInstance_iff hs hp inst).mpr hd⟩
  inst_live := by
    have hlive : ∀ r, (s.heap r).isSome → ((s.withInstance p svc inst).heap r).isSome := by
      intro r hr
      by_cases hrp : r = p
      · rw [hrp, withInstance_heap_self]
        rfl
      · obtain ⟨v, hv⟩ := isSome_iff_exists.mp hr
        rwa [withInstance_heap_of_ne inst hrp (hs.ne_nextAddress hv)]
    intro q v hq r hr
    by_cases hqp : q = p
    · subst hqp
      rw [withInstance_heap_self] at hq
      cases hq
      rcases mem_append.mp hr with hold | hnew
      · exact hlive r (hs.inst_live _ svc hp r hold)
      · rw [mem_singleton.mp hnew, withInstance_heap_new inst (hs.ne_nextAddress hp)]
        rfl
    by_cases hnew : q = s.nextAddress
    · subst hnew
      rw [withInstance_heap_new inst (hs.ne_nextAddress hp)] at hq
      cases hq
      cases hr
    · rw [withInstance_heap_of_ne inst hqp hnew] at hq
      exact hlive r (hs.inst_live q v hq r hr)
  host_live := fun q d hq => hs.host_live q d ((attached_withInstance_iff hs hp inst).mp hq)
  cell_live := fun d k hk cell hcell =>
    ⟨(hs.cell_live d k hk cell hcell).1,
      (attached_withInstance_iff hs hp inst).mpr (hs.cell_live d k hk cell hcell).2⟩
  wait_live := fun d k hk w hw =>
    (attached_withInstance_iff hs hp inst).mpr (hs.wait_live d k hk w hw)
  fresh := by
    intro q hq
    have hlt : s.nextAddress < q := hq
    have hqp : q ≠ p := by
      rintro rfl
      rw [hs.fresh q (Nat.le_of_lt hlt)] at hp
      cases hp
    rw [withInstance_heap_of_ne inst hqp (Nat.ne_of_gt hlt)]
    exact hs.fresh q (Nat.le_of_lt hlt)

end Server

end V2I.Mware
