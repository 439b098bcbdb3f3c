import V2I.Mware.RpcServer.Steps

/-!
# V2I.Mware.RpcServer.Hosts

Services and hosts refer to each other: a service to its host, a host to its services by a list
and a count. `Linked` says that the two agree, `Cleared` what is left of a host that
disconnected.

They hold all along a run exactly as long as no instance is registered, since that does not
attach it to a host, no service is removed, since its cell stays in the list of the host, and no
host disconnects that was launched or has a client.
-/

namespace V2I.Mware.Server

open List Option

variable {s s' : Server} {p : ℕ} {c : Bytes} {svc : ServerService} {h : HostInfo}
  {pkgname servicename : Bytes}

/-- The server knows the service: by its names, or as an instance of one that it knows so. -/
def Registered (s : Server) (p : ℕ) : Prop :=
  (∃ pkg name, s.serviceInfoTree pkg name = some p) ∨
    ∃ pkg name q svc, s.serviceInfoTree pkg name = some q ∧ s.heap q = some svc ∧
      p ∈ svc.instList

/-- Every service has a host, every host has its services. -/
structure Linked (s : Server) : Prop where
  hosted : ∀ p, s.Registered p → ∃ c, s.Attached p c ∧ (s.hostInfoTree c).isSome
  listed : ∀ c h, s.hostInfoTree c = some h →
    (∀ cell ∈ h.serviceList, cell.freed = false) ∧
      (h.serviceList.map HostServiceInfo.service).Nodup ∧
      ∀ p, p ∈ h.serviceList.map HostServiceInfo.service ↔ s.Attached p c
  counted : ∀ c h, s.hostInfoTree c = some h → h.refcnt = h.serviceList.length
  inTree : ∀ c, (s.hostInfoTree c).isSome ↔ ∃ p, s.Attached p c

/-- A host is down: none of its services runs, it neither runs nor was launched, it has no
client, and the next of its services to be launched launches it. -/
structure Cleared (s : Server) (c : Bytes) : Prop where
  stopped : ∀ p svc, s.heap p = some svc → svc.hostInfo = some c → svc.isRunning = false
  idle : ∀ h, s.hostInfoTree c = some h →
    h.running = false ∧ h.starting = false ∧ h.evlclient = none
  relaunched : ∀ p svc h, s.heap p = some svc → svc.hostInfo = some c →
    s.hostInfoTree c = some h → svc.proxied = false → ∀ e startcb, e.worker = true →
      ServerService.launchService s e p startcb =
        some (s.setHost c { h with starting := true },
          [.launch svc.pkgName h.containerInst (svc.launchCmd h startcb)], e.notified)

/-- A step keeps services and hosts linked, and leaves a host that disconnects down. -/
def KeepsHosts (s : Server) (op : Op) (s' : Server) : Prop :=
  Linked s' ∧ ∀ cliname instname h, op = .disconnected cliname instname →
    s.hostInfoTree instname = some h → h.pkgName = cliname → Cleared s' instname

/-- No instance is registered, no registered service is removed, and a host that disconnects was
not launched and has no client. -/
def SparesHosts (s : Server) : Op → Prop
  | .addService pkgname servicename instName executive ipaddr port version attributes =>
      s.addsInstance pkgname servicename instName executive ipaddr port version attributes = false
  | .removeService pkgname servicename => s.findService pkgname servicename = none
  | .evlPackage _ _ _ .serviceStart info =>
      s.addsForHost (ServiceInfo.updateInfo {} info).1 = false
  | .disconnected cliname instname => ∀ h, s.hostInfoTree instname = some h →
      h.pkgName = cliname → h.starting = false ∧ h.evlclient = none
  | _ => True

theorem linked_empty : Linked {} where
  hosted := by rintro p (⟨pkg, name, hp⟩ | ⟨pkg, name, q, svc, hq, -⟩) <;> contradiction
  listed := by simp
  counted := by simp
  inTree := by simp [Attached]

theorem registered_congr (hl : s'.links = s.links) : s'.Registered p ↔ s.Registered p := by
  have htree : s'.serviceInfoTree = s.serviceInfoTree := congrArg Links.tree hl
  have hinst : ∀ q, (∃ svc, s'.heap q = some svc ∧ p ∈ svc.instList) ↔
      ∃ svc, s.heap q = some svc ∧ p ∈ svc.instList := by
    intro q
    have hq : (s'.heap q).map (fun svc => (svc.hostInfo, svc.instList)) =
        (s.heap q).map fun svc => (svc.hostInfo, svc.instList) :=
      congrFun (congrArg Links.service hl) q
    cases hs' : s'.heap q <;> cases hs : s.heap q <;> simp_all
  simp only [Registered, htree]
  refine or_congr_right (exists₂_congr fun pkg name => exists_congr fun q => ?_)
  simp only [exists_and_left]
  exact and_congr_right fun _ => hinst q

theorem Linked.of_links (h : Linked s) (hl : s'.links = s.links) : Linked s' := by
  have hhost : ∀ d, (s'.hostInfoTree d).map (fun h => (h.serviceList, h.refcnt)) =
      (s.hostInfoTree d).map fun h => (h.serviceList, h.refcnt) :=
    fun d => congrFun (congrArg Links.host hl) d
  have hold : ∀ d k, s'.hostInfoTree d = some k → ∃ k₀, s.hostInfoTree d = some k₀ ∧
      k₀.serviceList = k.serviceList ∧ k₀.refcnt = k.refcnt := by
    intro d k hk
    have hd := hhost d
    rw [hk, map_some] at hd
    obtain ⟨k₀, hk₀, heq⟩ := map_eq_some_iff.mp hd.symm
    exact ⟨k₀, hk₀, (Prod.mk.inj heq).1, (Prod.mk.inj heq).2⟩
  have hsome : ∀ d, (s'.hostInfoTree d).isSome = (s.hostInfoTree d).isSome := by
    intro d
    rw [← isSome_map, hhost d, isSome_map]
  constructor
  · intro q hq
    obtain ⟨d, hatt, hd⟩ := h.hosted q ((registered_congr hl).mp hq)
    exact ⟨d, (attached_congr hl).mpr hatt, (hsome d).trans hd⟩
  · intro d k hk
    obtain ⟨k₀, hk₀, hlist, -⟩ := hold d k hk
    obtain ⟨hfree, hnodup, hmem⟩ := h.listed d k₀ hk₀
    rw [hlist] at hfree hnodup hmem
    exact ⟨hfree, hnodup, fun q => (hmem q).trans (attached_congr hl).symm⟩
  · intro d k hk
    obtain ⟨k₀, hk₀, hlist, hcnt⟩ := hold d k hk
    rw [← hcnt, ← hlist]
    exact h.counted d k₀ hk₀
  · intro d
    rw [hsome d, h.inTree d]
    exact exists_congr fun q => (attached_congr hl).symm

/-- What holds of a host that is there, or that is made for the first of its services. -/
theorem Linked.host_of_getD (h : Linked s) (svc : ServerService) :
    let k := (s.hostInfoTree c).getD svc.newHost
    (∀ cell ∈ k.serviceList, cell.freed = false) ∧
      (k.serviceList.map HostServiceInfo.service).Nodup ∧
      (∀ p, p ∈ k.serviceList.map HostServiceInfo.service ↔ s.Attached p c) ∧
      k.refcnt = k.serviceList.length := by
  cases hc : s.hostInfoTree c with
  | some k =>
      obtain ⟨hfree, hnodup, hmem⟩ := h.listed c k hc
      exact ⟨hfree, hnodup, hmem, h.counted c k hc⟩
  | none =>
      have hno : ∀ p, ¬ s.Attached p c := by
        intro p hp
        have hsome := (h.inTree c).mpr ⟨p, hp⟩
        rw [hc] at hsome
        cases hsome
      simp only [getD_none, newHost_serviceList, newHost_refcnt]
      exact ⟨by simp, by simp, fun p => iff_of_false (by simp) (hno p), rfl⟩

theorem Linked.register (hl : Linked s) (hs : Sound s)
    (hinst : ∀ p svc, s.heap p = some svc → svc.instList = []) (info : ServiceInfo) :
    Linked (s.register pkgname servicename info) where
  hosted := by
    have hattached : ∀ q, s.Registered q → ∃ d,
        (s.register pkgname servicename info).Attached q d ∧
          ((s.register pkgname servicename info).hostInfoTree d).isSome := by
      intro q hq
      obtain ⟨d, hatt, -⟩ := hl.hosted q hq
      have hatt' : (s.register pkgname servicename info).Attached q d :=
        (attached_register_iff hs info).mpr (.inr hatt)
      exact ⟨d, hatt', (hs.register info).host_live q d hatt'⟩
    rintro q (⟨pkg, name, hq⟩ | ⟨pkg, name, r, v, hr, hv, hq⟩)
    · rcases register_serviceInfoTree_cases hq with hnew | hold
      · have hatt : (s.register pkgname servicename info).Attached q
            ({ toServiceInfo := info } : ServerService).container :=
          (attached_register_iff hs info).mpr (.inl ⟨hnew, rfl⟩)
        exact ⟨_, hatt, (hs.register info).host_live q _ hatt⟩
      · exact hattached q (.inl ⟨pkg, name, hold⟩)
    · have hnone : v.instList = [] := by
        by_cases hnew : r = s.nextAddress
        · subst hnew
          rw [register_heap_self] at hv
          cases hv
          rfl
        · rw [register_heap_of_ne info hnew] at hv
          exact hinst r v hv
      rw [hnone] at hq
      cases hq
  listed := by
    intro d k hk
    by_cases hd : d = ({ toServiceInfo := info } : ServerService).container
    · subst hd
      rw [register_hostInfoTree_self] at hk
      cases hk
      obtain ⟨hfree, hnodup, hmem, -⟩ := hl.host_of_getD
        (c := ({ toServiceInfo := info } : ServerService).container) { toServiceInfo := info }
      have hnew : ¬ s.Attached s.nextAddress
          ({ toServiceInfo := info } : ServerService).container :=
        fun hatt => Nat.lt_irrefl _ (hatt.lt hs)
      refine ⟨?_, ?_, fun q => ?_⟩
      · intro cell hcell
        rcases mem_append.mp hcell with hold | hcell
        · exact hfree cell hold
        · rw [mem_singleton.mp hcell]
      · rw [map_append, nodup_append]
        refine ⟨hnodup, by simp, fun q hq r hr heq => hnew ?_⟩
        rw [map_singleton, mem_singleton] at hr
        rw [heq, hr] at hq
        exact (hmem _).mp hq
      · rw [map_append, mem_append, hmem, attached_register_iff hs, or_comm]
        simp only [map_singleton, mem_singleton, and_true]
    · rw [register_hostInfoTree_of_ne info hd] at hk
      obtain ⟨hfree, hnodup, hmem⟩ := hl.listed d k hk
      refine ⟨hfree, hnodup, fun q => ?_⟩
      rw [hmem, attached_register_iff hs]
      simp only [hd, and_false, false_or]
  counted := by
    intro d k hk
    by_cases hd : d = ({ toServiceInfo := info } : ServerService).container
    · subst hd
      rw [register_hostInfoTree_self] at hk
      cases hk
      obtain ⟨-, -, -, hcnt⟩ := hl.host_of_getD
        (c := ({ toServiceInfo := info } : ServerService).container) { toServiceInfo := info }
      simp only [hcnt, length_append, length_singleton, Int.natCast_add, Int.natCast_one]
    · rw [register_hostInfoTree_of_ne info hd] at hk
      exact hl.counted d k hk
  inTree := by
    intro d
    by_cases hd : d = ({ toServiceInfo := info } : ServerService).container
    · subst hd
      rw [register_hostInfoTree_self]
      exact iff_of_true rfl ⟨s.nextAddress, (attached_register_iff hs info).mpr (.inl ⟨rfl, rfl⟩)⟩
    · rw [register_hostInfoTree_of_ne info hd, hl.inTree d]
      refine exists_congr fun q => ?_
      rw [attached_register_iff hs]
      simp only [hd, and_false, false_or]

/-- The states of a run that spares the hosts. -/
structure Tidy (s : Server) : Prop where
  sound : Sound s
  linked : Linked s
  noInstance : ∀ p svc, s.heap p = some svc → svc.instList = []

theorem tidy_empty : Tidy {} := ⟨sound_empty, linked_empty, by simp⟩

namespace Tidy

theorem of_links (ht : Tidy s) (hs' : Sound s') (hl : s'.links = s.links) : Tidy s' := by
  refine ⟨hs', ht.linked.of_links hl, fun q v hq => ?_⟩
  have hv : (s'.heap q).map (fun svc => (svc.hostInfo, svc.instList)) =
      (s.heap q).map fun svc => (svc.hostInfo, svc.instList) :=
    congrFun (congrArg Links.service hl) q
  rw [hq, map_some] at hv
  obtain ⟨v₀, hq₀, heq⟩ := map_eq_some_iff.mp hv.symm
  rw [← (Prod.mk.inj heq).2]
  exact ht.noInstance q v₀ hq₀

theorem addsDefault (ht : Tidy s) (h : AddsDefault s s') : Tidy s' := by
  rcases h with rfl | ⟨pkg, name, info, -, rfl⟩
  · exact ht
  · refine ⟨ht.sound.register info, ht.linked.register ht.sound ht.noInstance info,
      fun q v hq => ?_⟩
    by_cases hnew : q = s.nextAddress
    · subst hnew
      rw [register_heap_self] at hq
      cases hq
      rfl
    · rw [register_heap_of_ne info hnew] at hq
      exact ht.noInstance q v hq

/-- Without instances every service that a package can name has a host. -/
theorem getService_attached (ht : Tidy s) {instName : Option Bytes}
    (hget : s.getService pkgname servicename instName = some p) : ∃ c, s.Attached p c := by
  simp only [getService, findService] at hget
  cases htree : s.serviceInfoTree pkgname servicename with
  | none => rw [htree] at hget; cases hget
  | some q =>
      obtain ⟨c, svc, hq, hc⟩ := ht.sound.service_live pkgname servicename q htree
      simp only [htree] at hget
      split at hget
      · cases hget
        exact ⟨c, svc, hq, hc⟩
      · rw [findInst, hq] at hget
        simp only [ht.noInstance q svc hq, find?_nil] at hget
        cases hget

end Tidy

/-! ## what breaks the links -/

theorem not_linked_of_homeless (h : Homeless s) : ¬ Linked s := by
  obtain ⟨pkg, name, p, svc, q, inst, htree, hp, hmem, hq, hnone⟩ := h
  intro hl
  obtain ⟨c, ⟨inst', hq', hc⟩, -⟩ := hl.hosted q (.inr ⟨pkg, name, p, svc, htree, hp, hmem⟩)
  cases hq.symm.trans hq'
  rw [hnone] at hc
  cases hc

variable {cells : List HostServiceInfo}

theorem findHostService_eq_true (hfree : ∀ cell ∈ cells, cell.freed = false)
    (hp : p ∈ cells.map HostServiceInfo.service) :
    HostInfo.findHostService cells p = some true := by
  induction cells with
  | nil => cases hp
  | cons cell cells ih =>
      obtain ⟨hcell, hcells⟩ := forall_mem_cons.mp hfree
      rw [HostInfo.findHostService, hcell, if_neg Bool.false_ne_true]
      split
      · rfl
      · rename_i hne
        rcases mem_cons.mp hp with heq | hmem
        · exact absurd heq.symm hne
        · exact ih hcells hmem

theorem exists_freed_deleteCell (hp : p ∈ cells.map HostServiceInfo.service) :
    ∃ cell ∈ HostInfo.deleteCell p cells, cell.freed = true := by
  induction cells with
  | nil => cases hp
  | cons cell cells ih =>
      rw [HostInfo.deleteCell]
      split
      · exact ⟨{ cell with freed := true }, mem_cons_self, rfl⟩
      · rename_i hne
        rcases mem_cons.mp hp with heq | hmem
        · exact absurd heq.symm hne
        · obtain ⟨freed, hmem, hfree⟩ := ih hmem
          exact ⟨freed, mem_cons_of_mem _ hmem, hfree⟩

/-- A service that is detached leaves a deleted cell in the list of its host, or the host is
deleted with such a cell in its list. -/
theorem detachService_freed (hfree : ∀ cell ∈ h.serviceList, cell.freed = false)
    (hp : p ∈ h.serviceList.map HostServiceInfo.service) {left : Option HostInfo} {ret : ℤ}
    (hdetach : h.detachService p = some (left, ret)) :
    ∃ k, left = some k ∧ ∃ cell ∈ k.serviceList, cell.freed = true := by
  obtain ⟨cell, hmem, hcell⟩ := exists_freed_deleteCell hp
  simp only [HostInfo.detachService, findHostService_eq_true hfree hp, HostInfo.release] at hdetach
  by_cases hcnt : h.refcnt - 1 < 1
  · have hany : (HostInfo.deleteCell p h.serviceList).any HostServiceInfo.freed = true :=
      any_eq_true.mpr ⟨cell, hmem, hcell⟩
    simp only [if_pos hcnt, hany, if_true] at hdetach
    cases hdetach
  · simp only [if_neg hcnt] at hdetach
    cases hdetach
    exact ⟨_, rfl, cell, hmem, hcell⟩

/-- Removing a registered service leaves a deleted cell behind. -/
theorem not_linked_of_removeService (ht : Tidy s)
    (hfind : s.findService pkgname servicename = some p)
    (hremove : s.removeService pkgname servicename = some s') : ¬ Linked s' := by
  obtain ⟨c, svc, hp, hc⟩ := ht.sound.service_live pkgname servicename p hfind
  obtain ⟨h, hh⟩ := ht.sound.exists_host hp hc
  obtain ⟨hfree, -, hmem⟩ := ht.linked.listed c h hh
  simp only [removeService, hfind, hp, deleteService, ServerService.detachHost, hc, hh,
    bind_eq_bind, bind_some] at hremove
  cases hdetach : h.detachService p with
  | none =>
      rw [hdetach] at hremove
      cases hremove
  | some r =>
      obtain ⟨left, ret⟩ := r
      obtain ⟨k, rfl, cell, hcell, hfreed⟩ :=
        detachService_freed hfree ((hmem p).mpr ⟨svc, hp, hc⟩) hdetach
      rw [hdetach, ht.noInstance p svc hp] at hremove
      cases hremove
      intro hl
      have hnot := (hl.listed c k (Function.update_self c _ _)).1 cell hcell
      rw [hnot] at hfreed
      cases hfreed

/-- A host that was launched, or has a client, is not down when it disconnects. -/
theorem idle_of_cleared_disconnect (ht : Tidy s) (hc : s.hostInfoTree c = some h)
    (hstep : s.step (.disconnected h.pkgName c) = some (s', [])) (hclear : Cleared s' c) :
    h.starting = false ∧ h.evlclient = none := by
  obtain ⟨t, hdisc, -, -, htree, -⟩ := disconnectHost_does ht.sound hc
  rw [step, hdisc] at hstep
  cases hstep
  obtain ⟨-, hstart, hcli⟩ := hclear.idle { h with running := false }
    (by rw [htree, Function.update_self])
  exact ⟨hstart, hcli⟩

/-! ## what keeps them -/

/-- The next launch of a service whose host is idle launches the host. -/
theorem launchService_of_idle (hp : s.heap p = some svc) (hsvc : svc.hostInfo = some c)
    (hc : s.hostInfoTree c = some h) (hrun : h.running = false) (hstart : h.starting = false)
    (hproxied : svc.proxied = false) (e : Environment) (hworker : e.worker = true)
    (startcb : Bool) :
    ServerService.launchService s e p startcb =
      some (s.setHost c { h with starting := true },
        [.launch svc.pkgName h.containerInst (svc.launchCmd h startcb)], e.notified) := by
  simp only [ServerService.launchService, hp, hsvc, hc, hrun, hstart, hproxied, hworker,
    bind_eq_bind, bind_some, Bool.false_eq_true, if_false, if_true]
  rfl

theorem cleared_of_disconnect (ht : Tidy s) (hc : s.hostInfoTree c = some h)
    (hidle : h.starting = false ∧ h.evlclient = none)
    (hdisc : HostInfo.disconnectHost s h.pkgName c = some (s', 0)) : Cleared s' c := by
  obtain ⟨t, hdisc', hst, hl, htree, hheap⟩ := disconnectHost_does ht.sound hc
  cases hdisc.symm.trans hdisc'
  have hhost : ∀ k, s'.hostInfoTree c = some k → k = { h with running := false } := by
    intro k hk
    rw [htree, Function.update_self] at hk
    exact (some.inj hk).symm
  constructor
  · intro q v hq hv
    -- the services that have this host are the ones in its list
    have hmem := ((ht.linked.listed c h hc).2.2 q).mpr ((attached_congr hl).mp ⟨v, hq, hv⟩)
    rw [hheap, if_pos hmem] at hq
    obtain ⟨v₀, -, rfl⟩ := map_eq_some_iff.mp hq
    rfl
  · intro k hk
    rw [hhost k hk]
    exact ⟨rfl, hidle⟩
  · intro q v k hq hv hk hproxied e startcb hworker
    obtain rfl := hhost k hk
    exact launchService_of_idle hq hv hk rfl hidle.1 hproxied e hworker startcb

/-- A step that spares the hosts keeps them. -/
theorem step_keepsHosts (ht : Tidy s) (op : Op) (hop : s.SparesHosts op) :
    ∃ s' outs, s.step op = some (s', outs) ∧ KeepsHosts s op s' ∧ Tidy s' := by
  -- for the steps that are not about a host that disconnects
  have hkeeps : ∀ {t : Server}, Tidy t →
      (∀ cliname instname, op ≠ .disconnected cliname instname) → KeepsHosts s op t :=
    fun hst hne => ⟨hst.linked, fun cliname instname _ heq => absurd heq (hne cliname instname)⟩
  cases op with
  | addService pkg name instName executive ipaddr port version attributes =>
      obtain ⟨s₁, r, hadd, -, -, hplain, -⟩ := addService_does ht.sound pkg name instName
        executive ipaddr port version attributes
      have ht₁ := ht.addsDefault (hplain hop).1
      exact ⟨s₁, [], by rw [step, hadd]; rfl, hkeeps ht₁ (by simp), ht₁⟩
  | removeService pkg name =>
      refine ⟨s, [], ?_, hkeeps ht (by simp), ht⟩
      rw [step, removeService, show s.findService pkg name = none from hop]
      rfl
  | evlPackage e sender seqid request info =>
      cases request with
      | serviceStart =>
          obtain ⟨s₁, r, s', outs, -, hstep, hs', hdefault, -, hl, -⟩ :=
            handleHostPackage_start_does ht.sound e sender seqid info
              (fun _ hget => ht.getService_attached hget) hop
          have ht' := (ht.addsDefault hdefault).of_links hs' hl
          exact ⟨s', outs, hstep, hkeeps ht' (by simp), ht'⟩
      | serviceStop =>
          obtain ⟨s', outs, hstep, hs', hl, -⟩ :=
            handleHostPackage_stop_does ht.sound e sender seqid info
          have ht' := ht.of_links hs' hl
          exact ⟨s', outs, hstep, hkeeps ht' (by simp), ht'⟩
      | client =>
          obtain ⟨s₁, r, s', outs, -, hstep, hs', hdefault, -, hl, -⟩ :=
            handleClientPackage_does ht.sound e sender seqid info
              (fun _ hget => ht.getService_attached hget)
          have ht' := (ht.addsDefault hdefault).of_links hs' hl
          exact ⟨s', outs, hstep, hkeeps ht' (by simp), ht'⟩
  | cmdPackage e sender seqid request info =>
      obtain ⟨s', outs, hstep, hs', hl, -⟩ :=
        handleCmdRequestPackage_does ht.sound e sender seqid request info
          (fun _ _ hget _ _ => ht.getService_attached hget)
      have ht' := ht.of_links hs' hl
      exact ⟨s', outs, hstep, hkeeps ht' (by simp), ht'⟩
  | startService e pkg name instName action =>
      obtain ⟨s', outs, ret, hstep, hs', hl, -⟩ :=
        startServiceInternal_does ht.sound e pkg name instName action
          (fun _ _ hget _ _ => ht.getService_attached hget)
      have ht' := ht.of_links hs' hl
      exact ⟨s', outs, by rw [step, hstep]; rfl, hkeeps ht' (by simp), ht'⟩
  | disconnected cliname instname =>
      obtain ⟨s', ret, hdisc, hs', hl, -⟩ := disconnectHost_serves ht.sound cliname instname
      have ht' := ht.of_links hs' hl
      refine ⟨s', [], by rw [step, hdisc]; rfl, ⟨ht'.linked, ?_⟩, ht'⟩
      intro cliname' instname' h heq hc hname
      cases heq
      subst hname
      have hret : ret = 0 := by
        obtain ⟨t, hdisc', -⟩ := disconnectHost_does ht.sound hc
        cases hdisc.symm.trans hdisc'
        rfl
      exact cleared_of_disconnect ht hc (hop h hc rfl) (hret ▸ hdisc)

/-- A step that does not spare the hosts fails, or does not keep them. -/
theorem not_keepsHosts_of_step (ht : Tidy s) (op : Op) {outs : List Output}
    (hop : ¬ s.SparesHosts op) (hstep : s.step op = some (s', outs)) : ¬ KeepsHosts s op s' := by
  rintro ⟨hlinked, hcleared⟩
  cases op with
  | addService pkg name instName executive ipaddr port version attributes =>
      obtain ⟨s₁, r, hadd, -, -, -, hinst⟩ := addService_does ht.sound pkg name instName
        executive ipaddr port version attributes
      rw [step, hadd] at hstep
      cases hstep
      exact not_linked_of_homeless (hinst (Bool.not_eq_false _ ▸ hop)).1 hlinked
  | removeService pkg name =>
      obtain ⟨p, hfind⟩ := ne_none_iff_exists'.mp hop
      obtain ⟨t, hremove, heq⟩ := map_eq_some_iff.mp hstep
      cases heq
      exact not_linked_of_removeService ht hfind hremove hlinked
  | evlPackage e sender seqid request info =>
      cases request with
      | serviceStart =>
          obtain ⟨s₁, r, hsvc, -, -, -, hinst⟩ := hostService_start_does ht.sound
            (ServiceInfo.updateInfo {} info).1 (fun _ hget => ht.getService_attached hget)
          obtain ⟨q, inst, rfl, hq, hnone⟩ := hinst (Bool.not_eq_false _ ▸ hop)
          simp only [step, handleEvlPackage, handleHostPackage, hsvc, bind_eq_bind,
            bind_some, if_true, startFromHost_eq_none hq hnone, bind_none] at hstep
          cases hstep
      | serviceStop => exact hop trivial
      | client => exact hop trivial
  | cmdPackage => exact hop trivial
  | startService => exact hop trivial
  | disconnected cliname instname =>
      refine hop fun h hc hname => ?_
      subst hname
      have houts : outs = [] := by
        obtain ⟨r, -, heq⟩ := map_eq_some_iff.mp hstep
        exact (Prod.mk.inj heq).2.symm
      subst houts
      exact idle_of_cleared_disconnect ht hc hstep (hcleared _ _ h rfl hc rfl)

/-- **Services and hosts stay linked, and a host that disconnects is down**, in every step of a
run of the server, if and only if every step of the run spares the hosts. -/
theorem allSteps_keepsHosts_iff (ops : List Op) :
    Machine.AllSteps step KeepsHosts {} ops ↔ Machine.Guarded step SparesHosts {} ops :=
  Machine.allSteps_iff_guarded (I := Tidy) (fun _ op ht hop => step_keepsHosts ht op hop)
    (fun _ op _ _ ht hop hstep => not_keepsHosts_of_step ht op hop hstep) tidy_empty

/-- An instance of a service that allows several of them. -/
def instanceAdded : Op :=
  .addService (ascii "pkg") (ascii "svc") (some (ascii "inst")) (some (ascii "svc.so")) none 0 1
    { singleton := singletonTypeNone }

/-- The instance is registered and has no host. -/
theorem not_keepsHosts_instanceAdded : ¬ Machine.AllSteps step KeepsHosts {} [instanceAdded] := by
  rintro ⟨s', outs, hstep, ⟨hlinked, -⟩, -⟩
  cases hstep
  refine not_linked_of_homeless ⟨ascii "pkg", ascii "svc", 0, _, 1, _, ?_, rfl, ?_, rfl, rfl⟩
    hlinked
  · decide
  · decide

end V2I.Mware.Server
