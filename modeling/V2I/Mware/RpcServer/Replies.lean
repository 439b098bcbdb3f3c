import V2I.Mware.RpcServer.Steps

/-!
# V2I.Mware.RpcServer.Replies

What becomes of the requests of clients. A request is known by its client and its sequence id.
It is answered at once where the service runs, or there is none; else it waits at the service,
and is answered when the service is next set running.

A service keeps the requests that wait by the names of their clients, so a second request of a
client takes the place of its first. Apart from that, and from instances, which have no host,
every request is answered once.
-/

namespace V2I.Mware

open List

/-- A request of a client, from `handle_client_package`. -/
abbrev Request := EvlClient × UInt32

namespace Server

variable {s s₁ s' : Server} {p : ℕ} {c : Bytes} {svc : ServerService} {r : Request}
  {asked : List Request} {ops : List Op}

/-- The request of a client that a package brings. -/
def Op.request : Op → Option Request
  | .evlPackage _ sender seqid .client _ => some (sender, seqid)
  | _ => none

/-- The service that a step sets running. -/
def startsService (s : Server) : Op → Option ℕ
  | .evlPackage _ _ _ .serviceStart info =>
      (s.hostService (ServiceInfo.updateInfo {} info).1 .serviceStart).bind Prod.snd
  | _ => none

/-- The service at an address runs. -/
def Running (s : Server) (p : ℕ) : Prop := (s.heap p).any fun svc => svc.isRunning

instance (s : Server) (p : ℕ) : Decidable (s.Running p) :=
  inferInstanceAs (Decidable (_ = true))

/-- The steps to come do not answer the request. -/
def Unanswered (r : Request) : Server → List Op → Prop
  | _, [] => True
  | s, op :: ops => ∃ s' outs, s.step op = some (s', outs) ∧
      r ∉ clientReplies outs ∧ Unanswered r s' ops

/-- The steps to come answer the request when they next set the service running, once. -/
def AnsweredByStart (r : Request) (p : ℕ) : Server → List Op → Prop
  | _, [] => True
  | s, op :: ops => ∃ s' outs, s.step op = some (s', outs) ∧
      if s.startsService op = some p then
        (clientReplies outs).count r = 1 ∧ Unanswered r s' ops
      else r ∉ clientReplies outs ∧ AnsweredByStart r p s' ops

/-- A request is answered once: at once where there is no service to ask or it runs, else when
the service is next set running. -/
def AnsweredOnce (s : Server) (r : Request) (info : ServicePkginfo) (s' : Server)
    (outs : List Output) (ops : List Op) : Prop :=
  ∃ s₁ svrsvc, s.clientService (ServiceInfo.updateInfo {} info).1 = some (s₁, svrsvc) ∧
    match svrsvc with
    | none => outs = [.reply r.1 r.2 ⟨-ENOTEXISTS, .client, {}⟩] ∧ Unanswered r s' ops
    | some p =>
        if s₁.Running p then clientReplies outs = [r] ∧ Unanswered r s' ops
        else clientReplies outs = [] ∧ AnsweredByStart r p s' ops

/-- Every request of the run is answered once, and only what was asked is answered. -/
def EachAnswered : Server → List Request → List Op → Prop
  | _, _, [] => True
  | s, asked, op :: ops => ∃ s' outs, s.step op = some (s', outs) ∧
      (∀ r ∈ clientReplies outs, r ∈ asked ++ (Op.request op).toList) ∧
      (∀ e sender seqid info, op = .evlPackage e sender seqid .client info →
        AnsweredOnce s (sender, seqid) info s' outs ops) ∧
      EachAnswered s' (asked ++ (Op.request op).toList) ops

/-- No registered service is removed, what is asked of a service without a host does not need
one, and no client asks for a service that does not run while a request of its waits there. -/
def KeepsRequests (s : Server) : Op → Prop
  | .removeService pkgname servicename => s.findService pkgname servicename = none
  | .evlPackage _ sender _ .client info =>
      (∀ p, s.named (ServiceInfo.updateInfo {} info).1 = some p → ∃ c, s.Attached p c) ∧
        ∀ s₁ p svc, s.clientService (ServiceInfo.updateInfo {} info).1 = some (s₁, some p) →
          s₁.heap p = some svc → svc.isRunning = false → ∀ lnr ∈ svc.serviceLnrList,
            ¬ (lnr.lnrClient.clientname = sender.clientname ∧
              lnr.lnrClient.instname = sender.instname)
  | .evlPackage _ _ _ .serviceStart info =>
      (∀ p, s.named (ServiceInfo.updateInfo {} info).1 = some p → ∃ c, s.Attached p c) ∧
        s.addsForHost (ServiceInfo.updateInfo {} info).1 = false
  | .cmdPackage _ _ _ request info =>
      s.NeedsHost (s.named (ServiceInfo.updateInfoCmd {} info).1) request
  | .startService _ pkgname svcName instName action =>
      s.NeedsHost (s.getService pkgname svcName instName) action
  | _ => True

/-! ## the requests that wait -/

/-- The requests that wait for the service at an address. -/
def waitingAt (s : Server) (p : ℕ) : List Request :=
  ((s.heap p).map ServerService.waiting).getD []

theorem waitingAt_of_heap (hp : s.heap p = some svc) : s.waitingAt p = svc.waiting := by
  rw [waitingAt, hp]
  rfl

theorem waitingAt_congr (h : s'.heap = s.heap) : s'.waitingAt p = s.waitingAt p := by
  rw [waitingAt, waitingAt, h]

theorem waitingAt_grown (h : Grown s s₁) (p : ℕ) : s₁.waitingAt p = s.waitingAt p := by
  cases hp : s.heap p with
  | some svc =>
      obtain ⟨l, hp₁⟩ := h.old p svc hp
      rw [waitingAt_of_heap hp, waitingAt_of_heap hp₁]
      rfl
  | none =>
      have hnone : s.waitingAt p = [] := by
        rw [waitingAt, hp]
        rfl
      rw [hnone]
      cases hp₁ : s₁.heap p with
      | none => rw [waitingAt, hp₁]; rfl
      | some svc =>
          rw [waitingAt_of_heap hp₁, ServerService.waiting, (h.new p svc hp hp₁).1]
          rfl

/-- The invariant of the requests that wait: each waits once, at one service, which does not run
and has no id. -/
structure Desk (s : Server) (asked : List Request) : Prop where
  sound : Sound s
  idle : ∀ p svc, s.heap p = some svc → svc.isRunning = true → svc.serviceLnrList = []
  id_running : ∀ p svc, s.heap p = some svc → svc.serviceId ≠ 0 → svc.isRunning = true
  nodup : ∀ p, (s.waitingAt p).Nodup
  apart : ∀ p q r, r ∈ s.waitingAt p → r ∈ s.waitingAt q → p = q
  asked : ∀ p, ∀ r ∈ s.waitingAt p, r ∈ asked

theorem desk_empty : Desk {} [] where
  sound := sound_empty
  idle := by simp
  id_running := by simp
  nodup := by simp [waitingAt]
  apart := by simp [waitingAt]
  asked := by simp [waitingAt]

namespace Desk

theorem of_grown (hd : Desk s asked) (hs₁ : Sound s₁) (h : Grown s s₁) : Desk s₁ asked where
  sound := hs₁
  idle q v hq hrun := by
    cases hold : s.heap q with
    | none => exact (h.new q v hold hq).1
    | some v₀ =>
        obtain ⟨l, hq₁⟩ := h.old q v₀ hold
        cases hq.symm.trans hq₁
        exact hd.idle q v₀ hold hrun
  id_running q v hq hid := by
    cases hold : s.heap q with
    | none => exact absurd (h.new q v hold hq).2 hid
    | some v₀ =>
        obtain ⟨l, hq₁⟩ := h.old q v₀ hold
        cases hq.symm.trans hq₁
        exact hd.id_running q v₀ hold hid
  nodup q := by
    rw [waitingAt_grown h]
    exact hd.nodup q
  apart q q' r := by
    rw [waitingAt_grown h, waitingAt_grown h]
    exact hd.apart q q' r
  asked q := by
    rw [waitingAt_grown h]
    exact hd.asked q

/-- Where each service keeps its requests, or has none left. -/
theorem of_waitingAt (hd : Desk s asked) (hs' : Sound s')
    (hidle : ∀ p svc, s'.heap p = some svc → svc.isRunning = true → svc.serviceLnrList = [])
    (hid : ∀ p svc, s'.heap p = some svc → svc.serviceId ≠ 0 → svc.isRunning = true)
    (hw : ∀ q, s'.waitingAt q = s.waitingAt q ∨ s'.waitingAt q = []) : Desk s' asked := by
  have hsub : ∀ q, ∀ r ∈ s'.waitingAt q, r ∈ s.waitingAt q := by
    intro q r hr
    rcases hw q with heq | hnil
    · exact heq ▸ hr
    · rw [hnil] at hr
      cases hr
  refine ⟨hs', hidle, hid, fun q => ?_, fun q q' r hr hr' => ?_, fun q r hr => ?_⟩
  · rcases hw q with heq | hnil
    · exact heq ▸ hd.nodup q
    · exact hnil ▸ nodup_nil
  · exact hd.apart q q' r (hsub q r hr) (hsub q' r hr')
  · exact hd.asked q r (hsub q r hr)

/-- What a step to start a service leaves: the requests that waited for it are answered, and the
others wait. -/
theorem of_serves (hd : Desk s asked) (hs' : Sound s') {target : Option ℕ}
    {replies : List Request} (h : Serves s s' target replies) :
    Desk s' asked ∧ replies = target.elim [] s.waitingAt ∧
      ∀ q, s'.waitingAt q = if target = some q then [] else s.waitingAt q := by
  cases h with
  | calm hcalm =>
      have hw : ∀ q, s'.waitingAt q = s.waitingAt q := by
        intro q
        rcases hcalm q with heq | ⟨v, hq, hq'⟩
        · rw [waitingAt, waitingAt, heq]
        · rw [waitingAt_of_heap hq, waitingAt_of_heap hq']
          rfl
      refine ⟨hd.of_waitingAt hs' (fun q v hq hrun => ?_) (fun q v hq hid => ?_)
        fun q => .inl (hw q), rfl, fun q => hw q⟩
      · rcases hcalm q with heq | ⟨v₀, -, hq'⟩
        · exact hd.idle q v (heq ▸ hq) hrun
        · cases hq.symm.trans hq'
          cases hrun
      · rcases hcalm q with heq | ⟨v₀, -, hq'⟩
        · exact hd.id_running q v (heq ▸ hq) hid
        · cases hq.symm.trans hq'
          exact absurd rfl hid
  | starts p svc n hp hid hstart =>
      have hself : s'.heap p = some (svc.started n) := by rw [hstart, Function.update_self]
      have hne : ∀ q, q ≠ p → s'.heap q = s.heap q := by
        intro q hq
        rw [hstart, Function.update_of_ne hq]
      have hw : ∀ q, s'.waitingAt q = if some p = some q then [] else s.waitingAt q := by
        intro q
        by_cases hq : q = p
        · subst hq
          rw [waitingAt_of_heap hself, if_pos rfl]
          rfl
        · rw [if_neg fun heq => hq (Option.some.inj heq).symm, waitingAt, waitingAt, hne q hq]
      refine ⟨hd.of_waitingAt hs' (fun q v hq hrun => ?_) (fun q v hq hid => ?_) fun q => ?_,
        (waitingAt_of_heap hp).symm, hw⟩
      · by_cases hqp : q = p
        · subst hqp
          cases hq.symm.trans hself
          rfl
        · exact hd.idle q v (hne q hqp ▸ hq) hrun
      · by_cases hqp : q = p
        · subst hqp
          cases hq.symm.trans hself
          rfl
        · exact hd.id_running q v (hne q hqp ▸ hq) hid
      · rw [hw q]
        split
        · exact .inr rfl
        · exact .inl rfl
  | runs p svc hp hid hheap =>
      -- a service that has an id runs, so nothing waits for it
      have hnil : s.waitingAt p = [] := by
        rw [waitingAt_of_heap hp, ServerService.waiting,
          hd.idle p svc hp (hd.id_running p svc hp hid)]
        rfl
      refine ⟨hd.of_waitingAt hs' (fun q v hq => hd.idle q v (hheap ▸ hq))
        (fun q v hq => hd.id_running q v (hheap ▸ hq)) fun q => .inl (waitingAt_congr hheap),
        hnil.symm, fun q => ?_⟩
      rw [waitingAt_congr hheap]
      split
      · rename_i heq
        rw [← Option.some.inj heq, hnil]
      · rfl

theorem of_heap_eq (hd : Desk s asked) (hs' : Sound s') (hheap : s'.heap = s.heap) :
    Desk s' asked :=
  hd.of_waitingAt hs' (fun q v hq => hd.idle q v (hheap ▸ hq))
    (fun q v hq => hd.id_running q v (hheap ▸ hq)) fun _ => .inl (waitingAt_congr hheap)

theorem mono (hd : Desk s asked) (more : List Request) : Desk s (asked ++ more) :=
  { hd with asked := fun p r hr => mem_append_left _ (hd.asked p r hr) }

end Desk

/-- Without a request of the same client, a request waits behind the others. -/
theorem putListener_eq {sender : EvlClient} {seqid : UInt32} {lnrs : List ServiceStartLnr}
    (h : ∀ lnr ∈ lnrs, ¬ (lnr.lnrClient.clientname = sender.clientname ∧
      lnr.lnrClient.instname = sender.instname)) :
    ServerService.putListener sender seqid lnrs = lnrs ++ [⟨seqid, sender⟩] := by
  induction lnrs with
  | nil => rfl
  | cons lnr lnrs ih =>
      obtain ⟨hne, hrest⟩ := forall_mem_cons.mp h
      rw [ServerService.putListener, if_neg hne, ih hrest]
      rfl

/-- A new request waits at a service that does not run. -/
theorem Desk.of_put (hd : Desk s asked) (hs' : Sound s') (hp : s.heap p = some svc)
    (hrun : svc.isRunning = false) {sender : EvlClient} {seqid : UInt32}
    (hnew : (sender, seqid) ∉ asked)
    (hput : ∀ lnr ∈ svc.serviceLnrList, ¬ (lnr.lnrClient.clientname = sender.clientname ∧
      lnr.lnrClient.instname = sender.instname))
    (hheap : s'.heap = Function.update s.heap p (some { svc with
      serviceLnrList := ServerService.putListener sender seqid svc.serviceLnrList })) :
    Desk s' (asked ++ [(sender, seqid)]) ∧
      ∀ q, s'.waitingAt q =
        if q = p then s.waitingAt q ++ [(sender, seqid)] else s.waitingAt q := by
  have hself : s'.heap p = some { svc with
      serviceLnrList := ServerService.putListener sender seqid svc.serviceLnrList } := by
    rw [hheap, Function.update_self]
  have hne : ∀ q, q ≠ p → s'.heap q = s.heap q := by
    intro q hq
    rw [hheap, Function.update_of_ne hq]
  have hw : ∀ q, s'.waitingAt q =
      if q = p then s.waitingAt q ++ [(sender, seqid)] else s.waitingAt q := by
    intro q
    by_cases hq : q = p
    · subst hq
      rw [if_pos rfl, waitingAt_of_heap hself, waitingAt_of_heap hp, ServerService.waiting,
        ServerService.waiting, putListener_eq hput, map_append]
      rfl
    · rw [if_neg hq, waitingAt, waitingAt, hne q hq]
  have hnot : ∀ q, (sender, seqid) ∉ s.waitingAt q := fun q hr => hnew (hd.asked q _ hr)
  refine ⟨⟨hs', fun q v hq hv => ?_, fun q v hq hid => ?_, fun q => ?_, fun q q' r hr hr' => ?_,
    fun q r hr => ?_⟩, hw⟩
  · by_cases hqp : q = p
    · subst hqp
      cases hq.symm.trans hself
      exact absurd hv (by rw [show _ = false from hrun]; exact Bool.false_ne_true)
    · exact hd.idle q v (hne q hqp ▸ hq) hv
  · by_cases hqp : q = p
    · subst hqp
      cases hq.symm.trans hself
      exact hd.id_running q svc hp hid
    · exact hd.id_running q v (hne q hqp ▸ hq) hid
  · rw [hw]
    split
    · rw [nodup_append]
      refine ⟨hd.nodup q, by simp, fun r hr r' hr' heq => hnot q ?_⟩
      rw [← mem_singleton.mp hr', ← heq]
      exact hr
    · exact hd.nodup q
  · rw [hw] at hr hr'
    -- the new request waits at `p` alone, the others as before
    by_cases hrn : r = (sender, seqid)
    · subst hrn
      split at hr
      · rename_i hq
        split at hr'
        · rename_i hq'
          exact hq.trans hq'.symm
        · exact absurd hr' (hnot q')
      · exact absurd hr (hnot q)
    · have hold : ∀ k, r ∈ (if k = p then s.waitingAt k ++ [(sender, seqid)]
          else s.waitingAt k) → r ∈ s.waitingAt k := by
        intro k hk
        split at hk
        · rcases mem_append.mp hk with hk | hk
          · exact hk
          · exact absurd (mem_singleton.mp hk) hrn
        · exact hk
      exact hd.apart q q' r (hold q hr) (hold q' hr')
  · rw [hw] at hr
    split at hr
    · rcases mem_append.mp hr with hr | hr
      · exact mem_append_left _ (hd.asked q r hr)
      · exact mem_append_right _ hr
    · exact mem_append_left _ (hd.asked q r hr)

/-! ## one step -/

/-- A step that is not a client's request answers the requests that wait for the service that it
starts. -/
theorem step_of_no_request (hd : Desk s asked) (op : Op) (hop : s.KeepsRequests op)
    (hno : Op.request op = none) :
    ∃ s' outs, s.step op = some (s', outs) ∧ Desk s' asked ∧
      clientReplies outs = (s.startsService op).elim [] s.waitingAt ∧
      ∀ q, s'.waitingAt q = if s.startsService op = some q then [] else s.waitingAt q := by
  cases op with
  | addService pkg name instName executive ipaddr port version attributes =>
      obtain ⟨s₁, r, hadd, hs₁, hgrown, -⟩ := addService_does hd.sound pkg name instName
        executive ipaddr port version attributes
      exact ⟨s₁, [], by rw [step, hadd]; rfl, hd.of_grown hs₁ hgrown, rfl,
        waitingAt_grown hgrown⟩
  | removeService pkg name =>
      refine ⟨s, [], ?_, hd, rfl, fun q => rfl⟩
      rw [step, removeService, show s.findService pkg name = none from hop]
      rfl
  | evlPackage e sender seqid request info =>
      cases request with
      | serviceStart =>
          obtain ⟨s₁, r, s', outs, hsvc, hstep, hs', -, hgrown, hl, hserves⟩ :=
            handleHostPackage_start_does hd.sound e sender seqid info hop.1 hop.2
          have hs₁ : Sound s₁ := by
            obtain ⟨s₂, r₂, hsvc₂, hs₂, -⟩ := hostService_start_does hd.sound _ hop.1
            cases hsvc.symm.trans hsvc₂
            exact hs₂
          have hstarts : s.startsService (.evlPackage e sender seqid .serviceStart info) = r := by
            rw [startsService, hsvc]
            rfl
          obtain ⟨hd', hreplies, hw⟩ := (hd.of_grown hs₁ hgrown).of_serves hs' hserves
          have hwait : s₁.waitingAt = s.waitingAt := funext fun q => waitingAt_grown hgrown q
          rw [hwait] at hreplies hw
          exact ⟨s', outs, hstep, hd', by rw [hstarts, hreplies], by rw [hstarts]; exact hw⟩
      | serviceStop =>
          obtain ⟨s', outs, hstep, hs', -, hserves⟩ :=
            handleHostPackage_stop_does hd.sound e sender seqid info
          obtain ⟨hd', hreplies, hw⟩ := hd.of_serves hs' hserves
          exact ⟨s', outs, hstep, hd', hreplies, hw⟩
      | client => cases hno
  | cmdPackage e sender seqid request info =>
      obtain ⟨s', outs, hstep, hs', -, hheap, houts⟩ :=
        handleCmdRequestPackage_does hd.sound e sender seqid request info hop
      exact ⟨s', outs, hstep, hd.of_heap_eq hs' hheap, houts, fun q => waitingAt_congr hheap⟩
  | startService e pkg name instName action =>
      obtain ⟨s', outs, ret, hstep, hs', -, hheap, houts⟩ :=
        startServiceInternal_does hd.sound e pkg name instName action hop
      exact ⟨s', outs, by rw [step, hstep]; rfl, hd.of_heap_eq hs' hheap, houts,
        fun q => waitingAt_congr hheap⟩
  | disconnected cliname instname =>
      obtain ⟨s', ret, hdisc, hs', -, hserves⟩ := disconnectHost_serves hd.sound cliname instname
      obtain ⟨hd', hreplies, hw⟩ := hd.of_serves hs' hserves
      exact ⟨s', [], by rw [step, hdisc]; rfl, hd', hreplies, hw⟩

/-- What a client's request does: it is answered, or it waits at a service that does not run. -/
inductive Handles (s s₁ s' : Server) (r : Request) (outs : List Output) : Option ℕ → Prop
  | unknown (houts : outs = [.reply r.1 r.2 ⟨-ENOTEXISTS, .client, {}⟩])
      (hw : ∀ q, s'.waitingAt q = s.waitingAt q) : Handles s s₁ s' r outs none
  | answered (p : ℕ) (hrun : s₁.Running p) (houts : clientReplies outs = [r])
      (hw : ∀ q, s'.waitingAt q = s.waitingAt q) : Handles s s₁ s' r outs (some p)
  | waits (p : ℕ) (hrun : ¬ s₁.Running p) (houts : clientReplies outs = [])
      (hw : ∀ q, s'.waitingAt q = if q = p then s.waitingAt q ++ [r] else s.waitingAt q) :
      Handles s s₁ s' r outs (some p)

theorem Handles.replies_subset {svrsvc : Option ℕ} {outs : List Output}
    (h : Handles s s₁ s' r outs svrsvc) : ∀ r' ∈ clientReplies outs, r' = r := by
  intro r' hr'
  cases h with
  | unknown houts =>
      rw [houts] at hr'
      exact mem_singleton.mp hr'
  | answered p hrun houts =>
      rw [houts] at hr'
      exact mem_singleton.mp hr'
  | waits p hrun houts =>
      rw [houts] at hr'
      cases hr'

/-- Another request waits where it did. -/
theorem Handles.waitingAt_iff {svrsvc : Option ℕ} {outs : List Output} {r' : Request}
    (h : Handles s s₁ s' r outs svrsvc) (hne : r' ≠ r) (q : ℕ) :
    r' ∈ s'.waitingAt q ↔ r' ∈ s.waitingAt q := by
  cases h with
  | unknown houts hw => rw [hw]
  | answered p hrun houts hw => rw [hw]
  | waits p hrun houts hw =>
      rw [hw]
      split
      · simp only [mem_append, mem_singleton, hne, or_false]
      · exact Iff.rfl

theorem step_of_request (hd : Desk s asked) (e : Environment) (sender : EvlClient) (seqid : UInt32)
    (info : ServicePkginfo) (hop : s.KeepsRequests (.evlPackage e sender seqid .client info))
    (hnew : (sender, seqid) ∉ asked) :
    ∃ s₁ svrsvc s' outs, s.clientService (ServiceInfo.updateInfo {} info).1 = some (s₁, svrsvc) ∧
      s.step (.evlPackage e sender seqid .client info) = some (s', outs) ∧
      Desk s' (asked ++ [(sender, seqid)]) ∧ Handles s s₁ s' (sender, seqid) outs svrsvc := by
  obtain ⟨s₁, svrsvc, s', outs, hsvc, hstep, hs', -, hgrown, hl, hcases⟩ :=
    handleClientPackage_does hd.sound e sender seqid info hop.1
  have hs₁ : Sound s₁ := by
    obtain ⟨s₂, r₂, hsvc₂, hs₂, -⟩ := clientService_does hd.sound _ hop.1
    cases hsvc.symm.trans hsvc₂
    exact hs₂
  have hd₁ := hd.of_grown hs₁ hgrown
  refine ⟨s₁, svrsvc, s', outs, hsvc, hstep, ?_⟩
  have hwait : ∀ q, s₁.waitingAt q = s.waitingAt q := waitingAt_grown hgrown
  rcases hcases with ⟨rfl, hheap, houts⟩ | ⟨p, svc, rfl, hp, hcases⟩
  · exact ⟨(hd₁.of_heap_eq hs' hheap).mono _, .unknown houts fun q => by
      rw [waitingAt_congr hheap, hwait]⟩
  have hrunning : s₁.Running p ↔ svc.isRunning = true := by
    rw [Running, hp, Option.any_some]
  rcases hcases with ⟨hrun, hheap, houts⟩ | ⟨hrun, houts, hheap⟩
  · exact ⟨(hd₁.of_heap_eq hs' hheap).mono _, .answered p (hrunning.mpr hrun) houts fun q => by
      rw [waitingAt_congr hheap, hwait]⟩
  · obtain ⟨hd', hw⟩ := hd₁.of_put hs' hp hrun hnew (hop.2 s₁ p svc hsvc hp hrun) hheap
    refine ⟨hd', .waits p (fun h => ?_) houts fun q => by rw [hw, hwait]⟩
    rw [hrunning, hrun] at h
    cases h

/-! ## runs -/

variable {op : Op}

theorem Op.request_eq_some (h : Op.request op = some r) :
    ∃ e info, op = .evlPackage e r.1 r.2 .client info := by
  cases op with
  | evlPackage e sender seqid request info =>
      cases request with
      | client =>
          cases h
          exact ⟨e, info, rfl⟩
      | serviceStart => cases h
      | serviceStop => cases h
  | addService => cases h
  | removeService => cases h
  | cmdPackage => cases h
  | startService => cases h
  | disconnected => cases h

/-- The requests that were asked so far and those to come are apart. -/
def Distinct (asked : List Request) (ops : List Op) : Prop :=
  (asked ++ ops.filterMap Op.request).Nodup

theorem Distinct.tail_of_none (h : Distinct asked (op :: ops)) (hno : Op.request op = none) :
    Distinct asked ops := by
  rwa [Distinct, filterMap_cons_none hno] at h

theorem Distinct.tail_of_some (h : Distinct asked (op :: ops)) (hreq : Op.request op = some r) :
    Distinct (asked ++ [r]) ops := by
  rwa [Distinct, filterMap_cons_some hreq, append_cons] at h

theorem Distinct.notMem (h : Distinct asked (op :: ops)) (hreq : Op.request op = some r) :
    r ∉ asked := by
  rw [Distinct, filterMap_cons_some hreq] at h
  intro hr
  exact (nodup_append.mp h).2.2 r hr r mem_cons_self rfl

/-- A request that waits nowhere, and was asked before, is not answered any more. -/
theorem unanswered_of_not_waiting (hd : Desk s asked) (hdistinct : Distinct asked ops)
    (hguard : Machine.Guarded step KeepsRequests s ops) (hr : r ∈ asked)
    (hw : ∀ q, r ∉ s.waitingAt q) : Unanswered r s ops := by
  induction ops generalizing s asked with
  | nil => trivial
  | cons op ops ih =>
      cases hreq : Op.request op with
      | none =>
          obtain ⟨s', outs, hstep, hd', hreplies, hw'⟩ := step_of_no_request hd op hguard.1 hreq
          refine ⟨s', outs, hstep, ?_, ih hd' (hdistinct.tail_of_none hreq)
            (hguard.2 s' outs hstep) hr fun q hmem => ?_⟩
          · rw [hreplies]
            cases s.startsService op with
            | none => exact not_mem_nil
            | some p => exact hw p
          · rw [hw'] at hmem
            split at hmem
            · cases hmem
            · exact hw q hmem
      | some r' =>
          obtain ⟨e, info, rfl⟩ := Op.request_eq_some hreq
          have hnew := hdistinct.notMem hreq
          have hne : r ≠ r' := fun heq => hnew (heq ▸ hr)
          obtain ⟨s₁, svrsvc, s', outs, -, hstep, hd', hhandles⟩ :=
            step_of_request hd e r'.1 r'.2 info hguard.1 hnew
          refine ⟨s', outs, hstep, fun hmem => hne (hhandles.replies_subset r hmem),
            ih hd' (hdistinct.tail_of_some hreq) (hguard.2 s' outs hstep)
              (mem_append_left _ hr) fun q hmem => ?_⟩
          exact hw q ((hhandles.waitingAt_iff hne q).mp hmem)

/-- A request that waits at a service is answered by the step that next starts it. -/
theorem answeredByStart_of_waiting (hd : Desk s asked) (hdistinct : Distinct asked ops)
    (hguard : Machine.Guarded step KeepsRequests s ops) (hr : r ∈ s.waitingAt p) :
    AnsweredByStart r p s ops := by
  induction ops generalizing s asked with
  | nil => trivial
  | cons op ops ih =>
      have hasked := hd.asked p r hr
      cases hreq : Op.request op with
      | none =>
          obtain ⟨s', outs, hstep, hd', hreplies, hw'⟩ := step_of_no_request hd op hguard.1 hreq
          have hrest := hdistinct.tail_of_none hreq
          refine ⟨s', outs, hstep, ?_⟩
          split
          · rename_i hstarts
            rw [hreplies, hstarts]
            refine ⟨count_eq_one_of_mem (hd.nodup p) hr,
              unanswered_of_not_waiting hd' hrest (hguard.2 s' outs hstep) hasked fun q hmem => ?_⟩
            -- it waited at `p` alone, where nothing waits now
            rw [hw'] at hmem
            split at hmem
            · cases hmem
            · rename_i hq
              exact hq (by rw [hstarts, hd.apart p q r hr hmem])
          · rename_i hstarts
            refine ⟨?_, ih hd' hrest (hguard.2 s' outs hstep) ?_⟩
            · rw [hreplies]
              cases hq : s.startsService op with
              | none => exact not_mem_nil
              | some q =>
                  intro hmem
                  exact hstarts (by rw [hq, hd.apart p q r hr hmem])
            · rw [hw', if_neg hstarts]
              exact hr
      | some r' =>
          obtain ⟨e, info, rfl⟩ := Op.request_eq_some hreq
          have hnew := hdistinct.notMem hreq
          have hne : r ≠ r' := fun heq => hnew (heq ▸ hasked)
          obtain ⟨s₁, svrsvc, s', outs, -, hstep, hd', hhandles⟩ :=
            step_of_request hd e r'.1 r'.2 info hguard.1 hnew
          refine ⟨s', outs, hstep, ?_⟩
          rw [if_neg (by simp [startsService])]
          exact ⟨fun hmem => hne (hhandles.replies_subset r hmem),
            ih hd' (hdistinct.tail_of_some hreq) (hguard.2 s' outs hstep)
              ((hhandles.waitingAt_iff hne p).mpr hr)⟩

theorem eachAnswered_of_desk (hd : Desk s asked) (hdistinct : Distinct asked ops)
    (hguard : Machine.Guarded step KeepsRequests s ops) : EachAnswered s asked ops := by
  induction ops generalizing s asked with
  | nil => trivial
  | cons op ops ih =>
      cases hreq : Op.request op with
      | none =>
          obtain ⟨s', outs, hstep, hd', hreplies, hw'⟩ := step_of_no_request hd op hguard.1 hreq
          refine ⟨s', outs, hstep, fun r hr => ?_, fun e sender seqid info heq => ?_, ?_⟩
          · rw [hreplies] at hr
            cases hq : s.startsService op with
            | none => rw [hq] at hr; cases hr
            | some p =>
                rw [hq] at hr
                exact mem_append_left _ (hd.asked p r hr)
          · rw [heq] at hreq
            cases hreq
          · rw [hreq, Option.toList_none, append_nil]
            exact ih hd' (hdistinct.tail_of_none hreq) (hguard.2 s' outs hstep)
      | some r =>
          obtain ⟨e, info, rfl⟩ := Op.request_eq_some hreq
          have hrest := hdistinct.tail_of_some hreq
          obtain ⟨s₁, svrsvc, s', outs, hsvc, hstep, hd', hhandles⟩ :=
            step_of_request hd e r.1 r.2 info hguard.1 (hdistinct.notMem hreq)
          have hguard' := hguard.2 s' outs hstep
          have hmem : r ∈ asked ++ [r] := mem_append_right _ mem_cons_self
          have hnot : ∀ q, r ∉ s.waitingAt q := fun q hr =>
            hdistinct.notMem hreq (hd.asked q r hr)
          refine ⟨s', outs, hstep, fun r' hr' => ?_, fun e' sender seqid info' heq => ?_,
            ih hd' hrest hguard'⟩
          · rw [hhandles.replies_subset r' hr']
            exact hmem
          · cases heq
            refine ⟨s₁, svrsvc, hsvc, ?_⟩
            cases hhandles with
            | unknown houts hw =>
                exact ⟨houts, unanswered_of_not_waiting hd' hrest hguard' hmem fun q => by
                  rw [hw]; exact hnot q⟩
            | answered q hrun houts hw =>
                dsimp only
                rw [if_pos hrun]
                exact ⟨houts, unanswered_of_not_waiting hd' hrest hguard' hmem fun q => by
                  rw [hw]; exact hnot q⟩
            | waits q hrun houts hw =>
                dsimp only
                rw [if_neg hrun]
                refine ⟨houts, answeredByStart_of_waiting hd' hrest hguard' ?_⟩
                rw [hw, if_pos rfl]
                exact mem_append_right _ mem_cons_self

/-- **Every request for a service is answered once**, in every run of the server whose requests
are told apart by client and sequence id and whose steps keep the requests. -/
theorem eachAnswered_of_keepsRequests (ops : List Op) (hdistinct : (ops.filterMap Op.request).Nodup)
    (hguard : Machine.Guarded step KeepsRequests {} ops) : EachAnswered {} [] ops :=
  eachAnswered_of_desk desk_empty hdistinct hguard

theorem AnsweredByStart.count_of_starts (h : AnsweredByStart r p s (op :: ops))
    (hstarts : s.startsService op = some p) :
    ∃ s' outs, s.step op = some (s', outs) ∧ (clientReplies outs).count r = 1 := by
  obtain ⟨s', outs, hstep, h⟩ := h
  rw [if_pos hstarts] at h
  exact ⟨s', outs, hstep, h.1⟩

/-- A service, two requests of a client for it, and its start from its container. -/
def svcAdded : Op :=
  .addService (ascii "pkg") (ascii "svc") none (some (ascii "svc.so")) none 0 1 {}

def svcInfo : ServicePkginfo := { pkgname := some (ascii "pkg"), name := some (ascii "svc") }

def appAsks (seqid : UInt32) : Op :=
  .evlPackage ⟨true, 0, 0⟩ ⟨0, ascii "app", ascii "app1"⟩ seqid .client svcInfo

def svcStarts : Op :=
  .evlPackage ⟨true, 0, 0⟩ ⟨1, ascii "pkg", ascii "_pkg_svc"⟩ 0 .serviceStart svcInfo

theorem eachAnswered_of_keepsRequests_started :
    EachAnswered {} [] [svcAdded, appAsks 1, svcStarts] := by
  refine eachAnswered_of_keepsRequests _ (by decide) ⟨trivial, fun s₁ r₁ h₁ => ?_⟩
  cases h₁
  refine ⟨⟨fun p hp => ?_, fun s₂ p svc hs₂ hp _ lnr hlnr => ?_⟩, fun s₂ r₂ h₂ => ?_⟩
  · cases hp
    exact ⟨_, _, rfl, rfl⟩
  · cases hs₂
    cases hp
    cases hlnr
  cases h₂
  refine ⟨⟨fun p hp => ?_, rfl⟩, fun _ _ _ => trivial⟩
  cases hp
  exact ⟨_, _, rfl, rfl⟩

/-- The second request of a client takes the place of the first, which is not answered when the
service starts. -/
theorem not_eachAnswered_twice :
    ([svcAdded, appAsks 1, appAsks 2, svcStarts].filterMap Op.request).Nodup ∧
      ¬ EachAnswered {} [] [svcAdded, appAsks 1, appAsks 2, svcStarts] := by
  refine ⟨by decide, ?_⟩
  rintro ⟨s₁, outs₁, h₁, -, -, s₂, outs₂, h₂, -, hreq, -⟩
  cases h₁
  cases h₂
  obtain ⟨s₃, svrsvc, hsvc, hanswered⟩ := hreq _ _ _ _ rfl
  cases hsvc
  obtain ⟨-, s₄, outs₄, h₄, hstart⟩ := hanswered
  cases h₄
  -- the second request does not start the service, the last step does
  obtain ⟨s₅, outs₅, h₅, hcount⟩ := hstart.2.count_of_starts rfl
  cases h₅
  exact absurd hcount (by decide)

end Server

end V2I.Mware
