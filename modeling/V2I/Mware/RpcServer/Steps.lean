import V2I.Mware.RpcServer.Sound

/-!
# V2I.Mware.RpcServer.Steps

What one step of the RPC server does, from a state with sound pointers: which services it adds,
what it leaves of the links between services and hosts, which services it starts or stops, and
what it replies to clients.
-/

namespace V2I.Mware.Server

open List Option

variable {s s₁ s' : Server} {p : ℕ} {c : Bytes} {svc : ServerService} {h : HostInfo}
  {pkgname servicename : Bytes}

/-! ## services that are added -/

/-- Whether `add_service` registers an instance. -/
def addsInstance (s : Server) (pkgname servicename : Bytes)
    (instName executive ipaddr : Option Bytes) (port version : UInt32) (attributes : Flags) :
    Bool :=
  let inst := ServiceInfo.new pkgname servicename instName executive ipaddr port version attributes
  !inst.instName.isEmpty &&
    match s.findService pkgname servicename with
    | some p => s.admits p inst
    | none => inst.checkMultiInstance

/-- At most a default service was added. -/
def AddsDefault (s s₁ : Server) : Prop :=
  s₁ = s ∨ ∃ pkgname servicename info,
    s.serviceInfoTree pkgname servicename = none ∧ s₁ = s.register pkgname servicename info

/-- The services there were have at most more instances; a new one waits for nothing and has no
id. -/
structure Grown (s s₁ : Server) : Prop where
  old : ∀ q svc, s.heap q = some svc → ∃ l, s₁.heap q = some { svc with instList := l }
  new : ∀ q svc, s.heap q = none → s₁.heap q = some svc →
    svc.serviceLnrList = [] ∧ svc.serviceId = 0

theorem Grown.refl (s : Server) : Grown s s where
  old _ svc hq := ⟨svc.instList, hq⟩
  new q svc hnone hq := by rw [hnone] at hq; cases hq

theorem Grown.trans {t : Server} (h : Grown s s₁) (h' : Grown s₁ t) : Grown s t where
  old q svc hq := by
    obtain ⟨l, hq₁⟩ := h.old q svc hq
    obtain ⟨l', ht⟩ := h'.old q _ hq₁
    exact ⟨l', ht⟩
  new q svc hnone hq := by
    cases hq₁ : s₁.heap q with
    | none => exact h'.new q svc hq₁ hq
    | some v =>
        obtain ⟨l, ht⟩ := h'.old q v hq₁
        rw [hq] at ht
        cases ht
        exact h.new q v hnone hq₁

theorem grown_register (hs : Sound s) {info : ServiceInfo} (hid : info.serviceId = 0) :
    Grown s (s.register pkgname servicename info) where
  old q svc hq := ⟨svc.instList, by rw [register_heap_of_ne info (hs.ne_nextAddress hq), hq]⟩
  new q svc hnone hq := by
    by_cases hnew : q = s.nextAddress
    · subst hnew
      rw [register_heap_self] at hq
      cases hq
      exact ⟨rfl, hid⟩
    · rw [register_heap_of_ne info hnew, hnone] at hq
      cases hq

theorem grown_withInstance (hs : Sound s) (hp : s.heap p = some svc) {inst : ServiceInfo}
    (hid : inst.serviceId = 0) : Grown s (s.withInstance p svc inst) where
  old q v hq := by
    by_cases hqp : q = p
    · subst hqp
      cases hp.symm.trans hq
      exact ⟨_, withInstance_heap_self inst⟩
    · exact ⟨v.instList, by rw [withInstance_heap_of_ne inst hqp (hs.ne_nextAddress hq), hq]⟩
  new q v hnone hq := by
    have hqp : q ≠ p := by
      rintro rfl
      rw [hnone] at hp
      cases hp
    by_cases hnew : q = s.nextAddress
    · subst hnew
      rw [withInstance_heap_new inst (hs.ne_nextAddress hp)] at hq
      cases hq
      exact ⟨rfl, hid⟩
    · rw [withInstance_heap_of_ne inst hqp hnew, hnone] at hq
      cases hq

/-- A registered instance that has no host. -/
def Homeless (s : Server) : Prop :=
  ∃ pkg name p svc q inst, s.serviceInfoTree pkg name = some p ∧ s.heap p = some svc ∧
    q ∈ svc.instList ∧ s.heap q = some inst ∧ inst.hostInfo = none

theorem homeless_withInstance (hs : Sound s)
    (htree : s.serviceInfoTree pkgname servicename = some p)
    (hp : s.heap p = some svc) (inst : ServiceInfo) : Homeless (s.withInstance p svc inst) :=
  ⟨pkgname, servicename, p, _, s.nextAddress, { toServiceInfo := inst }, htree,
    withInstance_heap_self inst, mem_append_right _ mem_cons_self,
    withInstance_heap_new inst (hs.ne_nextAddress hp), rfl⟩

theorem register_serviceInfoTree_self (info : ServiceInfo) :
    (s.register pkgname servicename info).serviceInfoTree pkgname servicename =
      some s.nextAddress := by
  simp only [register, Function.update_self]

/-- `add_service`: what is added, and whether the service it returns has a host. -/
theorem addService_does (hs : Sound s) (pkgname servicename : Bytes)
    (instName executive ipaddr : Option Bytes) (port version : UInt32) (attributes : Flags) :
    ∃ s₁ r,
      s.addService pkgname servicename instName executive ipaddr port version attributes =
        some (s₁, r) ∧
      Sound s₁ ∧ Grown s s₁ ∧
      (s.addsInstance pkgname servicename instName executive ipaddr port version attributes =
          false →
        AddsDefault s s₁ ∧ ∀ p, r = some p → ∃ c, s₁.Attached p c) ∧
      (s.addsInstance pkgname servicename instName executive ipaddr port version attributes =
          true →
        Homeless s₁ ∧ ∃ q inst, r = some q ∧ s₁.heap q = some inst ∧ inst.hostInfo = none) := by
  cases htree : s.serviceInfoTree pkgname servicename with
  | some p =>
      obtain ⟨c, svc, hp, hc⟩ := hs.service_live pkgname servicename p htree
      simp only [addService_of_find htree hp, addsInstance, findService, htree]
      split
      · rename_i hadds
        refine ⟨_, _, rfl, hs.withInstance hp _, grown_withInstance hs hp rfl, fun hno => ?_,
          fun _ => ⟨homeless_withInstance hs htree hp _, _, _, rfl,
            withInstance_heap_new _ (hs.ne_nextAddress hp), rfl⟩⟩
        rw [hadds] at hno
        cases hno
      · rename_i hno
        refine ⟨s, none, rfl, hs, Grown.refl s, fun _ => ⟨.inl rfl, fun p hp => by cases hp⟩,
          fun hadds => absurd hadds hno⟩
  | none =>
      simp only [addService_of_find_none hs htree, addsInstance, findService, htree]
      have hreg : Sound (s.register pkgname servicename
          (.new pkgname servicename none executive ipaddr port version attributes)) :=
        hs.register _
      have hgrown : Grown s (s.register pkgname servicename
          (.new pkgname servicename none executive ipaddr port version attributes)) :=
        grown_register hs rfl
      split
      · rename_i hempty
        rw [hempty]
        refine ⟨_, _, rfl, hreg, hgrown, fun _ => ⟨.inr ⟨_, _, _, htree, rfl⟩, fun p hp => ?_⟩,
          fun hadds => by cases hadds⟩
        cases hp
        exact ⟨_, (attached_register_iff hs _).mpr (.inl ⟨rfl, rfl⟩)⟩
      · rename_i hempty
        rw [Bool.eq_false_iff.mpr hempty]
        split
        · rename_i hmulti
          rw [hmulti]
          refine ⟨_, _, rfl, hreg.withInstance (register_heap_self _) _,
            hgrown.trans (grown_withInstance hreg (register_heap_self _) rfl),
            fun hno => absurd hno (by decide), fun _ => ⟨homeless_withInstance hreg
              (register_serviceInfoTree_self _) (register_heap_self _) _, _, _, rfl,
              withInstance_heap_new _ (hreg.ne_nextAddress (register_heap_self _)), rfl⟩⟩
        · rename_i hmulti
          rw [Bool.eq_false_iff.mpr hmulti]
          refine ⟨_, _, rfl, hreg, hgrown,
            fun _ => ⟨.inr ⟨_, _, _, htree, rfl⟩, fun p hp => by cases hp⟩,
            fun hadds => by cases hadds⟩

/-- `get_service` finds what is there; a default service has a host. -/
theorem getService_live (hs : Sound s) {instName : Option Bytes}
    (hget : s.getService pkgname servicename instName = some p) : (s.heap p).isSome := by
  simp only [getService, findService] at hget
  cases htree : s.serviceInfoTree pkgname servicename with
  | none => rw [htree] at hget; cases hget
  | some q =>
      obtain ⟨c, svc, hq, hc⟩ := hs.service_live pkgname servicename q htree
      simp only [htree] at hget
      split at hget
      · cases hget
        rw [hq]
        rfl
      · rw [findInst, hq] at hget
        exact hs.inst_live q svc hq p (mem_of_find?_eq_some hget)

theorem getService_none_attached (hs : Sound s)
    (hget : s.getService pkgname servicename none = some p) : ∃ c, s.Attached p c := by
  simp only [getService, findService] at hget
  cases htree : s.serviceInfoTree pkgname servicename with
  | none => rw [htree] at hget; cases hget
  | some q =>
      simp only [htree] at hget
      cases hget
      exact hs.service_live pkgname servicename _ htree

/-- The default service of an instance that a client asked for in vain, or a new one. -/
theorem clientService_does (hs : Sound s) (tmp : ServiceInfo)
    (hhost : ∀ p, s.getService tmp.pkgName tmp.serviceName tmp.instname = some p →
      ∃ c, s.Attached p c) :
    ∃ s₁ r, s.clientService tmp = some (s₁, r) ∧ Sound s₁ ∧ Grown s s₁ ∧ AddsDefault s s₁ ∧
      ∀ p, r = some p → ∃ c, s₁.Attached p c := by
  rw [clientService]
  cases hget : s.getService tmp.pkgName tmp.serviceName tmp.instname with
  | some p =>
      refine ⟨s, some p, rfl, hs, Grown.refl s, .inl rfl, fun q hq => ?_⟩
      cases hq
      exact hhost p hget
  | none =>
      cases hdef : s.getService tmp.pkgName tmp.serviceName none with
      | some p =>
          refine ⟨s, some p, rfl, hs, Grown.refl s, .inl rfl, fun q hq => ?_⟩
          cases hq
          exact getService_none_attached hs hdef
      | none =>
          obtain ⟨s₁, r, hadd, hs₁, hgrown, hplain, -⟩ := addService_does hs tmp.pkgName
            tmp.serviceName tmp.instname none (some tmp.ipaddr) tmp.port 0 {}
          have hno : s.addsInstance tmp.pkgName tmp.serviceName tmp.instname none
              (some tmp.ipaddr) tmp.port 0 {} = false := by
            have htree : s.findService tmp.pkgName tmp.serviceName = none := by
              cases hfind : s.findService tmp.pkgName tmp.serviceName with
              | none => rfl
              | some q =>
                  rw [getService, hfind] at hdef
                  cases hdef
            rw [addsInstance, htree]
            exact Bool.and_false _
          exact ⟨s₁, r, hadd, hs₁, hgrown, (hplain hno).1, (hplain hno).2⟩

/-- What `handle_host_package` adds for a service that starts. -/
def addsForHost (s : Server) (tmp : ServiceInfo) : Bool :=
  (s.getService tmp.pkgName tmp.serviceName tmp.instname).isNone &&
    s.addsInstance tmp.pkgName tmp.serviceName tmp.instname (some tmp.executive)
      (some tmp.ipaddr) tmp.port tmp.version tmp.flags

theorem hostService_start_does (hs : Sound s) (tmp : ServiceInfo)
    (hhost : ∀ p, s.getService tmp.pkgName tmp.serviceName tmp.instname = some p →
      ∃ c, s.Attached p c) :
    ∃ s₁ r, s.hostService tmp .serviceStart = some (s₁, r) ∧ Sound s₁ ∧ Grown s s₁ ∧
      (s.addsForHost tmp = false →
        AddsDefault s s₁ ∧ ∀ p, r = some p → ∃ c, s₁.Attached p c) ∧
      (s.addsForHost tmp = true →
        ∃ q inst, r = some q ∧ s₁.heap q = some inst ∧ inst.hostInfo = none) := by
  rw [hostService, addsForHost]
  cases hget : s.getService tmp.pkgName tmp.serviceName tmp.instname with
  | some p =>
      refine ⟨s, some p, rfl, hs, Grown.refl s, fun _ => ⟨.inl rfl, fun q hq => ?_⟩,
        fun hadds => by cases hadds⟩
      cases hq
      exact hhost p hget
  | none =>
      obtain ⟨s₁, r, hadd, hs₁, hgrown, hplain, hinst⟩ := addService_does hs tmp.pkgName
        tmp.serviceName tmp.instname (some tmp.executive) (some tmp.ipaddr) tmp.port tmp.version
        tmp.flags
      exact ⟨s₁, r, hadd, hs₁, hgrown, hplain, fun hadds => (hinst hadds).2⟩

/-! ## packages and calls -/

/-- What a step that is not about a client's request does to the services there are: it stops
some, or it is to start one. That one answers the requests that wait for it, unless it has an id
already. -/
inductive Serves (s s' : Server) : Option ℕ → List (EvlClient × UInt32) → Prop
  | calm (h : ∀ q, s'.heap q = s.heap q ∨
      ∃ svc, s.heap q = some svc ∧ s'.heap q = some svc.stopped) : Serves s s' none []
  | starts (p : ℕ) (svc : ServerService) (n : UInt32) (hp : s.heap p = some svc)
      (hid : svc.serviceId = 0)
      (h : s'.heap = Function.update s.heap p (some (svc.started n))) :
      Serves s s' (some p) svc.waiting
  | runs (p : ℕ) (svc : ServerService) (hp : s.heap p = some svc) (hid : svc.serviceId ≠ 0)
      (h : s'.heap = s.heap) : Serves s s' (some p) []

theorem serves_of_heap_eq (h : s'.heap = s.heap) : Serves s s' none [] :=
  .calm fun q => .inl (congrFun h q)

theorem Serves.of_heap_eq {target : Option ℕ} {replies : List (EvlClient × UInt32)}
    (h : Serves s₁ s' target replies) (heap : s₁.heap = s.heap) : Serves s s' target replies := by
  cases h with
  | calm hcalm => exact .calm fun q => heap ▸ hcalm q
  | starts p svc n hp hid hstart => exact .starts p svc n (heap ▸ hp) hid (heap ▸ hstart)
  | runs p svc hp hid hruns => exact .runs p svc (heap ▸ hp) hid (heap ▸ hruns)

/-- `server_service::set_running(true)`, of a service with a host. -/
theorem setRunning_true_serves (hs : Sound s) (hp : s.Attached p c) :
    ∃ s' outs ret, ServerService.setRunning s p true = some (s', outs, ret) ∧ Sound s' ∧
      s'.links = s.links ∧ Serves s s' (some p) (clientReplies outs) := by
  obtain ⟨svc, hp, hc⟩ := hp
  obtain ⟨h, hh⟩ := hs.exists_host hp hc
  obtain ⟨svc', n, outs, ret, hset, hcases⟩ := setRunning_true_does hp hc hh
  rcases hcases with ⟨hid, hsvc, houts⟩ | ⟨hid, hsvc, houts⟩
  · subst hsvc
    rw [setService_eq_self hp] at hset
    refine ⟨_, outs, ret, hset, hs.setServiceCnt n, rfl, ?_⟩
    rw [houts]
    exact .runs p _ hp hid rfl
  · subst hsvc
    refine ⟨_, outs, ret, hset, (hs.setService hp (svc.started n) rfl rfl).setServiceCnt n,
      links_setService hp (svc.started n) rfl rfl, ?_⟩
    rw [houts]
    exact .starts p svc n hp hid rfl

theorem setEvlclient_kept (cli : Option EvlClient) : HostKept p h (h.setEvlclient cli).1 := by
  cases cli with
  | none => exact ⟨rfl, rfl, fun w hw => .inl hw⟩
  | some cli =>
      rw [HostInfo.setEvlclient]
      split
      · exact ⟨rfl, rfl, fun w hw => .inl hw⟩
      · exact ⟨rfl, rfl, fun w hw => .inl hw⟩

theorem startFromHost_does (hs : Sound s) (hp : s.Attached p c) (e : Environment)
    (sender : EvlClient) :
    ∃ s' outs, s.startFromHost e sender p = some (s', outs) ∧ Sound s' ∧ s'.links = s.links ∧
      Serves s s' (some p) (clientReplies outs) := by
  obtain ⟨svc, hsvc, hc⟩ := id hp
  obtain ⟨h, hh⟩ := hs.exists_host hsvc hc
  -- the host, which runs already or starts to
  obtain ⟨t, outs₁, hhost, ht, hlinks, hheap, houts₁⟩ : ∃ t outs,
      (if h.running then some (s, []) else
        HostInfo.setRunning (s.setHost c (h.setEvlclient (some sender)).1) e c true) =
          some (t, outs) ∧
        Sound t ∧ t.links = s.links ∧ t.heap = s.heap ∧ clientReplies outs = [] := by
    split
    · exact ⟨s, [], rfl, hs, rfl, rfl, rfl⟩
    · have hcli : HostKept p h (h.setEvlclient (some sender)).1 := setEvlclient_kept _
      have hs₁ := hs.setHost_of_kept hh hp hcli
      have hh₁ : (s.setHost c (h.setEvlclient (some sender)).1).hostInfoTree c =
          some (h.setEvlclient (some sender)).1 := setHost_hostInfoTree_self
      have hp₁ : (s.setHost c (h.setEvlclient (some sender)).1).Attached p c := hp
      obtain ⟨h', outs, hset, hkept, hnone⟩ := hostSetRunning_does hs₁ hh₁ e true p
      refine ⟨_, outs, hset, hs₁.setHost_of_kept hh₁ hp₁ hkept, ?_, rfl, hnone⟩
      rw [links_setHost hh₁ hkept.serviceList hkept.refcnt,
        links_setHost hh hcli.serviceList hcli.refcnt]
  have hpt : t.Attached p c := (attached_congr hlinks).mpr hp
  obtain ⟨s', outs₂, ret, hset, hs', hlinks', hserves⟩ := setRunning_true_serves ht hpt
  refine ⟨s', outs₁ ++ outs₂, ?_, hs', hlinks'.trans hlinks, ?_⟩
  · simp only [startFromHost, hsvc, hc, hh, bind_eq_bind, bind_some, hhost, hset]
    rfl
  · rw [clientReplies_append, houts₁, nil_append]
    exact hserves.of_heap_eq hheap

/-- A service without a host cannot be started from one. -/
theorem startFromHost_eq_none (hp : s.heap p = some svc) (hnone : svc.hostInfo = none)
    (e : Environment) (sender : EvlClient) : s.startFromHost e sender p = none := by
  simp only [startFromHost, hp, hnone, bind_eq_bind, bind_some, bind_none]

/-- The service that a package names. -/
def named (s : Server) (tmp : ServiceInfo) : Option ℕ :=
  s.getService tmp.pkgName tmp.serviceName tmp.instname

/-- A package of a service that starts. -/
theorem handleHostPackage_start_does (hs : Sound s) (e : Environment) (sender : EvlClient)
    (seqid : UInt32) (info : ServicePkginfo)
    (hhost : ∀ p, s.named (ServiceInfo.updateInfo {} info).1 = some p → ∃ c, s.Attached p c)
    (hadds : s.addsForHost (ServiceInfo.updateInfo {} info).1 = false) :
    ∃ s₁ r s' outs, s.hostService (ServiceInfo.updateInfo {} info).1 .serviceStart = some (s₁, r) ∧
      s.handleHostPackage e sender seqid .serviceStart info = some (s', outs) ∧ Sound s' ∧
      AddsDefault s s₁ ∧ Grown s s₁ ∧ s'.links = s₁.links ∧
      Serves s₁ s' r (clientReplies outs) := by
  obtain ⟨s₁, r, hsvc, hs₁, hgrown, hplain, -⟩ := hostService_start_does hs _ hhost
  obtain ⟨hdefault, hatt⟩ := hplain hadds
  cases r with
  | none =>
      refine ⟨s₁, none, s₁, [.reply sender seqid ⟨-1, .service, {}⟩], hsvc, ?_, hs₁, hdefault,
        hgrown, rfl, serves_of_heap_eq rfl⟩
      simp only [handleHostPackage, hsvc, bind_eq_bind, bind_some]
      rfl
  | some p =>
      obtain ⟨c, hp⟩ := hatt p rfl
      obtain ⟨s', outs, hstart, hs', hlinks, hserves⟩ := startFromHost_does hs₁ hp e sender
      obtain ⟨svc, hsvc', -⟩ := (attached_congr hlinks).mpr hp
      refine ⟨s₁, some p, s', outs ++ [.reply sender seqid ⟨0, .service, svc.loadInfo.1⟩], hsvc, ?_,
        hs', hdefault, hgrown, hlinks, ?_⟩
      · simp only [handleHostPackage, hsvc, bind_eq_bind, bind_some, hstart,
          hostReply, hsvc', if_true]
        rfl
      · rw [clientReplies_append]
        exact (append_nil _).symm ▸ hserves

/-- A package of a service that stops. -/
theorem handleHostPackage_stop_does (hs : Sound s) (e : Environment) (sender : EvlClient)
    (seqid : UInt32) (info : ServicePkginfo) :
    ∃ s' outs, s.handleHostPackage e sender seqid .serviceStop info = some (s', outs) ∧
      Sound s' ∧ s'.links = s.links ∧ Serves s s' none (clientReplies outs) := by
  cases hget : s.getService (ServiceInfo.updateInfo {} info).1.pkgName
      (ServiceInfo.updateInfo {} info).1.serviceName
      (ServiceInfo.updateInfo {} info).1.instname with
  | none =>
      refine ⟨s, [.reply sender seqid ⟨-1, .service, {}⟩], ?_, hs, rfl, serves_of_heap_eq rfl⟩
      simp only [handleHostPackage, hostService, hget, bind_eq_bind, reduceCtorEq, if_false,
        bind_some]
      rfl
  | some p =>
      obtain ⟨svc, hp⟩ := isSome_iff_exists.mp (getService_live hs hget)
      refine ⟨s.setService p svc.stopped,
        [.reply sender seqid ⟨0, .service, svc.stopped.loadInfo.1⟩], ?_,
        hs.setService hp svc.stopped rfl rfl,
        links_setService hp svc.stopped rfl rfl, .calm fun q => ?_⟩
      · simp only [handleHostPackage, hostService, hget, bind_eq_bind, reduceCtorEq, if_false,
          bind_some, setRunning_false hp, hostReply, setService_heap_self, map_some]
        rfl
      · by_cases hq : q = p
        · subst hq
          exact .inr ⟨svc, hp, setService_heap_self⟩
        · exact .inl (setService_heap_of_ne hq)

/-- A client's request: it is answered where the service runs, or there is none; else it waits
while the service is launched. -/
theorem handleClientPackage_does (hs : Sound s) (e : Environment) (sender : EvlClient)
    (seqid : UInt32) (info : ServicePkginfo)
    (hhost : ∀ p, s.named (ServiceInfo.updateInfo {} info).1 = some p → ∃ c, s.Attached p c) :
    ∃ s₁ r s' outs, s.clientService (ServiceInfo.updateInfo {} info).1 = some (s₁, r) ∧
      s.handleClientPackage e sender seqid info = some (s', outs) ∧ Sound s' ∧
      AddsDefault s s₁ ∧ Grown s s₁ ∧ s'.links = s₁.links ∧
      (r = none ∧ s'.heap = s₁.heap ∧ outs = [.reply sender seqid ⟨-ENOTEXISTS, .client, {}⟩] ∨
        ∃ p svc, r = some p ∧ s₁.heap p = some svc ∧
          (svc.isRunning = true ∧ s'.heap = s₁.heap ∧ clientReplies outs = [(sender, seqid)] ∨
            svc.isRunning = false ∧ clientReplies outs = [] ∧
              s'.heap = Function.update s₁.heap p (some { svc with
                serviceLnrList :=
                  ServerService.putListener sender seqid svc.serviceLnrList }))) := by
  obtain ⟨s₁, r, hsvc, hs₁, hgrown, hdefault, hatt⟩ := clientService_does hs _ hhost
  cases r with
  | none =>
      refine ⟨s₁, none, s₁, [.reply sender seqid ⟨-ENOTEXISTS, .client, {}⟩], hsvc, ?_, hs₁,
        hdefault, hgrown, rfl, .inl ⟨rfl, rfl, rfl⟩⟩
      simp only [handleClientPackage, hsvc, bind_eq_bind, bind_some]
      rfl
  | some p =>
      obtain ⟨c, hp⟩ := hatt p rfl
      obtain ⟨svc, hsvc', hc⟩ := id hp
      obtain ⟨h, hh⟩ := hs₁.exists_host hsvc' hc
      cases hrun : svc.isRunning with
      | true =>
          obtain ⟨outs, hsend, houts⟩ := sendServiceStartReply_does hrun hc hh sender seqid
          refine ⟨s₁, some p, s₁, outs, hsvc, ?_, hs₁, hdefault, hgrown, rfl,
            .inr ⟨p, svc, rfl, hsvc', .inl ⟨hrun, rfl, houts⟩⟩⟩
          simp only [handleClientPackage, hsvc, bind_eq_bind, bind_some, hsvc', hrun,
            if_true, hsend]
          rfl
      | false =>
          obtain ⟨t, ht⟩ : ∃ t, t = s₁.setService p { svc with
              serviceLnrList := ServerService.putListener sender seqid svc.serviceLnrList } :=
            ⟨_, rfl⟩
          have hst : Sound t := ht ▸ hs₁.setService hsvc' _ rfl rfl
          have hlt : t.links = s₁.links := ht ▸ links_setService hsvc' _ rfl rfl
          have hht : t.hostInfoTree c = some h := ht ▸ hh
          have hadd : ServerService.addServiceStartListener s₁ p sender seqid = some t := by
            rw [ServerService.addServiceStartListener, hsvc', ht]
            rfl
          obtain ⟨h', outs, ret, hlaunch, hkept, houts⟩ :=
            launchService_does hst ((attached_congr hlt).mpr hp) hht e false
          refine ⟨s₁, some p, t.setHost c h', outs, hsvc, ?_,
            hst.setHost_of_kept hht ((attached_congr hlt).mpr hp) hkept, hdefault, hgrown,
            (links_setHost hht hkept.serviceList hkept.refcnt).trans hlt,
            .inr ⟨p, svc, rfl, hsvc', .inr ⟨hrun, houts, by rw [ht]; rfl⟩⟩⟩
          simp only [handleClientPackage, hsvc, bind_eq_bind, bind_some, hsvc', hrun,
            Bool.false_eq_true, if_false, hadd, hlaunch]
          rfl

/-- A step that only asks for things outside, and may mark a host as launched. -/
def Asks (s s' : Server) (outs : List Output) : Prop :=
  Sound s' ∧ s'.links = s.links ∧ s'.heap = s.heap ∧ clientReplies outs = []

theorem asks_refl (hs : Sound s) {outs : List Output} (h : clientReplies outs = []) :
    Asks s s outs := ⟨hs, rfl, rfl, h⟩

theorem launchService_asks (hs : Sound s) (hp : s.Attached p c) (e : Environment) (startcb : Bool) :
    ∃ s' outs ret, ServerService.launchService s e p startcb = some (s', outs, ret) ∧
      Asks s s' outs := by
  obtain ⟨h, hh⟩ := isSome_iff_exists.mp (hs.host_live p c hp)
  obtain ⟨h', outs, ret, hlaunch, hkept, houts⟩ := launchService_does hs hp hh e startcb
  exact ⟨_, outs, ret, hlaunch, hs.setHost_of_kept hh hp hkept,
    links_setHost hh hkept.serviceList hkept.refcnt, rfl, houts⟩

/-- The host that a command needs: to start the service, or to reach one that runs. -/
def NeedsHost (s : Server) (instance? : Option ℕ) (request : CmdRequestType) : Prop :=
  ∀ p svc, instance? = some p → s.heap p = some svc →
    request = .startService ∨ svc.isRunning = true → ∃ c, s.Attached p c

theorem startServiceInternal_does (hs : Sound s) (e : Environment) (pkgname svcName : Bytes)
    (instName : Option Bytes) (action : CmdRequestType)
    (hhost : s.NeedsHost (s.getService pkgname svcName instName) action) :
    ∃ s' outs ret, s.startServiceInternal e pkgname svcName instName action =
        some (s', outs, ret) ∧ Asks s s' outs := by
  rw [startServiceInternal]
  cases hget : s.getService pkgname svcName instName with
  | none => exact ⟨s, [], -ENOTEXISTS, rfl, asks_refl hs rfl⟩
  | some p =>
      obtain ⟨svc, hp⟩ := isSome_iff_exists.mp (getService_live hs hget)
      simp only [hp, bind_eq_bind, bind_some]
      cases hrun : svc.isRunning with
      | true =>
          obtain ⟨c, hatt⟩ := hhost p svc hget hp (.inr hrun)
          cases action with
          | startService =>
              obtain ⟨outs, ret, hreq, houts⟩ := requestContainer_does hs hatt e .startRequest
              exact ⟨s, outs, ret, by rw [hreq]; rfl, asks_refl hs houts⟩
          | terminateService =>
              obtain ⟨outs, ret, hreq, houts⟩ := requestContainer_does hs hatt e .terminateRequest
              exact ⟨s, outs, ret, by rw [hreq]; rfl, asks_refl hs houts⟩
      | false =>
          cases action with
          | startService =>
              obtain ⟨c, hatt⟩ := hhost p svc hget hp (.inl rfl)
              exact launchService_asks hs hatt e true
          | terminateService => exact ⟨s, [], 0, rfl, asks_refl hs rfl⟩

theorem clientReplies_append_cmdReply (outs : List Output) (sender : EvlClient) (seqid : UInt32)
    (ret : ℤ) : clientReplies (outs ++ [.cmdReply sender seqid ret]) = clientReplies outs := by
  rw [clientReplies_append]
  exact append_nil _

theorem handleCmdRequestPackage_does (hs : Sound s) (e : Environment) (sender : EvlClient)
    (seqid : UInt32) (request : CmdRequestType) (info : CmdServiceInfo)
    (hhost : s.NeedsHost (s.named (ServiceInfo.updateInfoCmd {} info).1) request) :
    ∃ s' outs, s.handleCmdRequestPackage e sender seqid request info = some (s', outs) ∧
      Asks s s' outs := by
  rw [handleCmdRequestPackage]
  rw [named] at hhost
  generalize (ServiceInfo.updateInfoCmd {} info).1 = tmp at hhost ⊢
  cases hget : s.getService tmp.pkgName tmp.serviceName tmp.instname with
  | none => exact ⟨s, [.cmdReply sender seqid (-ENOTEXISTS)], rfl, asks_refl hs rfl⟩
  | some p =>
      obtain ⟨svc, hp⟩ := isSome_iff_exists.mp (getService_live hs hget)
      simp only [hp, bind_eq_bind, bind_some]
      cases hrun : svc.isRunning with
      | true =>
          obtain ⟨c, hatt⟩ := hhost p svc hget hp (.inr hrun)
          cases request with
          | startService =>
              obtain ⟨outs, ret, hreq, houts⟩ := requestContainer_does hs hatt e .startRequest
              refine ⟨s, outs ++ [.cmdReply sender seqid ret], by rw [hreq]; rfl,
                asks_refl hs ?_⟩
              rw [clientReplies_append_cmdReply, houts]
          | terminateService =>
              obtain ⟨outs, ret, hreq, houts⟩ := requestContainer_does hs hatt e .terminateRequest
              exact ⟨s, .cmdReply sender seqid 0 :: outs, by rw [hreq]; rfl,
                asks_refl hs houts⟩
      | false =>
          cases request with
          | startService =>
              obtain ⟨c, hatt⟩ := hhost p svc hget hp (.inl rfl)
              obtain ⟨s', outs, ret, hlaunch, hs', hl, hheap, houts⟩ :=
                launchService_asks hs hatt e true
              refine ⟨s', outs ++ [.cmdReply sender seqid ret], by rw [hlaunch]; rfl, hs', hl,
                hheap, ?_⟩
              rw [clientReplies_append_cmdReply, houts]
          | terminateService =>
              exact ⟨s, [.cmdReply sender seqid 0], rfl, asks_refl hs rfl⟩

/-! ## a container disconnects -/

theorem stopServices_does (hs : Sound s) (cells : List HostServiceInfo)
    (hlive : ∀ cell ∈ cells, cell.freed = false ∧ (s.heap cell.service).isSome) :
    ∃ s', HostInfo.stopServices s cells = some s' ∧ Sound s' ∧ s'.links = s.links ∧
      s'.hostInfoTree = s.hostInfoTree ∧
      ∀ q, s'.heap q =
        if q ∈ cells.map HostServiceInfo.service then (s.heap q).map ServerService.stopped
        else s.heap q := by
  induction cells generalizing s with
  | nil => exact ⟨s, rfl, hs, rfl, rfl, fun q => by simp⟩
  | cons cell cells ih =>
      obtain ⟨⟨hfree, hcell⟩, hcells⟩ := forall_mem_cons.mp hlive
      obtain ⟨svc, hp⟩ := isSome_iff_exists.mp hcell
      have hheap : ∀ q, (s.setService cell.service svc.stopped).heap q =
          if q = cell.service then some svc.stopped else s.heap q := by
        intro q
        by_cases hq : q = cell.service
        · rw [if_pos hq, hq, setService_heap_self]
        · rw [if_neg hq, setService_heap_of_ne hq]
      obtain ⟨s', hstop, hs', hl, htree, hstopped⟩ :=
        ih (hs.setService hp svc.stopped rfl rfl) fun cell' hmem => by
          refine ⟨(hcells cell' hmem).1, ?_⟩
          rw [hheap]
          split
          · rfl
          · exact (hcells cell' hmem).2
      refine ⟨s', ?_, hs', hl.trans (links_setService hp svc.stopped rfl rfl), htree,
        fun q => ?_⟩
      · rw [HostInfo.stopServices, hfree, if_neg Bool.false_ne_true, setRunning_false hp]
        exact hstop
      · rw [hstopped, hheap]
        by_cases hq : q = cell.service
        · subst hq
          simp only [if_true, map_some, map_cons, mem_cons, true_or, hp]
          split <;> rfl
        · simp only [map_cons, mem_cons, hq, false_or, if_false]

/-- `disconnect_host` of a host that is there: it does not run, and its services stop. -/
theorem disconnectHost_does (hs : Sound s) (hc : s.hostInfoTree c = some h) :
    ∃ s', HostInfo.disconnectHost s h.pkgName c = some (s', 0) ∧ Sound s' ∧
      s'.links = s.links ∧
      s'.hostInfoTree = Function.update s.hostInfoTree c (some { h with running := false }) ∧
      ∀ q, s'.heap q =
        if q ∈ h.serviceList.map HostServiceInfo.service then
          (s.heap q).map ServerService.stopped
        else s.heap q := by
  have hhost : Sound (s.setHost c { h with running := false }) :=
    hs.setHost hc rfl rfl (hs.wait_live c h hc)
  obtain ⟨s', hstop, hs', hl, htree, hheap⟩ :=
    stopServices_does hhost h.serviceList fun cell hcell => by
      obtain ⟨hfree, svc, hsvc, -⟩ := hs.cell_live c h hc cell hcell
      exact ⟨hfree, by rw [setHost_heap, hsvc]; rfl⟩
  refine ⟨s', ?_, hs', hl.trans (links_setHost hc rfl rfl), htree, hheap⟩
  simp only [HostInfo.disconnectHost, hc, ne_eq, not_true_eq_false, if_false,
    HostInfo.setEvlclient, hstop, bind_eq_bind, bind_some]
  rfl

theorem disconnectHost_serves (hs : Sound s) (cliname instname : Bytes) :
    ∃ s' ret, HostInfo.disconnectHost s cliname instname = some (s', ret) ∧ Sound s' ∧
      s'.links = s.links ∧ Serves s s' none [] := by
  cases hc : s.hostInfoTree instname with
  | none =>
      refine ⟨s, -ENOTEXISTS, ?_, hs, rfl, serves_of_heap_eq rfl⟩
      rw [HostInfo.disconnectHost, hc]
  | some h =>
      by_cases hname : cliname = h.pkgName
      · subst hname
        obtain ⟨s', hdisc, hs', hl, -, hheap⟩ := disconnectHost_does hs hc
        refine ⟨s', 0, hdisc, hs', hl, .calm fun q => ?_⟩
        rw [hheap]
        split
        · cases hq : s.heap q with
          | none => exact .inl rfl
          | some svc => exact .inr ⟨svc, rfl, rfl⟩
        · exact .inl rfl
      · refine ⟨s, -ELOGIC, ?_, hs, rfl, serves_of_heap_eq rfl⟩
        rw [HostInfo.disconnectHost, hc]
        exact if_pos hname

end V2I.Mware.Server
