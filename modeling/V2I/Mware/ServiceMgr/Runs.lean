import V2I.Mware.ServiceMgr

/-!
# V2I.Mware.ServiceMgr.Runs

The states that the operations of the service manager reach. `WellFormed` says what they keep true
of each service and its instances, `Kept` what they keep true of the whole, and `kept_run` that
they do.
-/

namespace V2I.Mware

open List

/-- A pointer to a string, or null. -/
def text? (s : Option CString) : Option Bytes := s.map Subtype.val

theorem zero_not_mem_text? (s : Option CString) : 0 ∉ (text? s).getD [] := by
  cases s with
  | none => exact not_mem_nil
  | some s => exact s.2

namespace ServiceMgr

/-- The calls that change the services, by their arguments. -/
inductive Op
  | addService (pkgname servicename : CString) (executive ipaddr : Option CString)
      (port version : UInt32) (attributes : Flags)
  | removeService (pkgname servicename : CString)
  | addInstance (pkgname servicename : CString) (instname : Option CString)
  | removeInstance (pkgname servicename : CString) (instname : Option CString)

/-- The state after a call. The ones about instances are made on what `get_service` finds. -/
def apply (m : ServiceMgr) : Op → ServiceMgr
  | .addService pkgname servicename executive ipaddr port version attributes =>
      (m.addService pkgname.val servicename.val (text? executive) (text? ipaddr) port version
        attributes).1
  | .removeService pkgname servicename => (m.removeService pkgname.val servicename.val).1
  | .addInstance pkgname servicename instname =>
      m.onService pkgname.val servicename.val fun svc => svc.addInstance (text? instname)
  | .removeInstance pkgname servicename instname =>
      m.onService pkgname.val servicename.val fun svc => svc.removeInstance (text? instname)

/-- The state after calls on an empty manager. -/
def run (ops : List Op) : ServiceMgr := ops.foldl apply {}

/-! ## what is kept -/

/-- The texts of a service, as C strings. -/
structure Texts (svc : ServiceImpl) : Prop where
  pkgName : 0 ∉ svc.pkgName
  serviceName : 0 ∉ svc.serviceName
  executive : 0 ∉ svc.executive
  ipaddr : 0 ∉ svc.ipaddr
  insts : ∀ inst ∈ svc.instList, 0 ∉ inst.instName

/-- What is needed of a service to write it. -/
structure Writable (svc : ServiceImpl) : Prop where
  texts : Texts svc
  instcnt : svc.instcnt = UInt32.ofNat svc.instList.length
  named : ∀ inst ∈ svc.instList, inst.instName ≠ []

/-- What the operations keep true of a service. -/
structure WellFormed (svc : ServiceImpl) : Prop extends Writable svc where
  base : svc.toServiceInfo = .new svc.pkgName svc.serviceName none (some svc.executive)
    (some svc.ipaddr) svc.port svc.version svc.flags
  multi : svc.instList ≠ [] → svc.checkMultiInstance = true
  insts : ∀ inst ∈ svc.instList, inst = .new svc.pkgName svc.serviceName (some inst.instName)
    (some svc.executive) (some svc.ipaddr) svc.port svc.version svc.flags
  distinct : (svc.instList.map ServiceInfo.instName).Nodup

/-- No two services have the same names. -/
def Distinct (svcs : List ServiceImpl) : Prop :=
  svcs.Pairwise fun a b => a.Named b.pkgName b.serviceName = false

/-- What the operations keep true of the manager. -/
structure Kept (m : ServiceMgr) : Prop where
  cnt : m.serviceCnt = m.serviceInfoList.length
  distinct : Distinct m.serviceInfoList
  svcs : ∀ svc ∈ m.serviceInfoList, WellFormed svc

variable {m : ServiceMgr} {svc : ServiceImpl}

/-- What adding an instance does. -/
theorem addInstance_cases (svc : ServiceImpl) (instname : Option Bytes) :
    (svc.addInstance instname).1 = svc ∨
      ∃ name, instname = some name ∧ name ≠ [] ∧ svc.checkMultiInstance = true ∧
        svc.findInst name = none ∧
        (svc.addInstance instname).1 =
          { svc with
            instList := svc.instList ++ [.new svc.pkgName svc.serviceName (some name)
              (some svc.executive) (some svc.ipaddr) svc.port svc.version svc.flags]
            instcnt := svc.instcnt + 1 } := by
  rw [ServiceImpl.addInstance]
  by_cases hempty : (instname.getD []).isEmpty
  · exact .inl (by rw [if_pos hempty])
  · rw [if_neg hempty]
    by_cases hdefault : !svc.isDefaultService
    · exact .inl (by rw [if_pos hdefault])
    · rw [if_neg hdefault]
      by_cases hmulti : !svc.checkMultiInstance
      · exact .inl (by rw [if_pos hmulti])
      · rw [if_neg hmulti]
        by_cases hfound : (svc.findInst (instname.getD [])).isSome
        · exact .inl (by rw [if_pos hfound])
        · rw [if_neg hfound]
          cases instname with
          | none => exact absurd rfl hempty
          | some name =>
              exact .inr ⟨name, rfl, by simpa using hempty, by simpa using hmulti,
                by simpa using hfound, rfl⟩

/-- What removing an instance does. -/
theorem removeInstance_cases (svc : ServiceImpl) (instname : Option Bytes) :
    (svc.removeInstance instname).1 = svc ∨
      ∃ name, (svc.findInst name).isSome ∧
        (svc.removeInstance instname).1 =
          { svc with
            instList := svc.instList.eraseP fun inst => inst.instName == name
            instcnt := svc.instcnt - 1 } := by
  rw [ServiceImpl.removeInstance]
  by_cases hempty : (instname.getD []).isEmpty
  · exact .inl (by rw [if_pos hempty])
  · rw [if_neg hempty]
    by_cases hdefault : !svc.isDefaultService
    · exact .inl (by rw [if_pos hdefault])
    · rw [if_neg hdefault]
      by_cases hnone : (svc.findInst (instname.getD [])).isNone
      · exact .inl (by rw [if_pos hnone])
      · rw [if_neg hnone]
        exact .inr ⟨instname.getD [], Option.isSome_iff_ne_none.mpr (by simpa using hnone), rfl⟩

theorem WellFormed.addInstance (h : WellFormed svc) (instname : Option CString) :
    WellFormed (svc.addInstance (text? instname)).1 := by
  obtain heq | ⟨name, hname, hne, hmulti, hnone, heq⟩ := addInstance_cases svc (text? instname)
  · rwa [heq]
  · rw [heq]
    have htext : 0 ∉ name := by
      have hzero := zero_not_mem_text? instname
      rwa [hname] at hzero
    refine ⟨⟨⟨h.texts.pkgName, h.texts.serviceName, h.texts.executive, h.texts.ipaddr, ?_⟩, ?_, ?_⟩,
      h.base, fun _ => hmulti, ?_, ?_⟩
    · exact forall_mem_append.mpr ⟨h.texts.insts, forall_mem_singleton.mpr htext⟩
    · show svc.instcnt + 1 = _
      rw [h.instcnt, length_append, length_singleton, UInt32.ofNat_add]
      rfl
    · exact forall_mem_append.mpr ⟨h.named, forall_mem_singleton.mpr hne⟩
    · exact forall_mem_append.mpr ⟨h.insts, forall_mem_singleton.mpr rfl⟩
    · show (List.map _ (_ ++ [_])).Nodup
      rw [map_append, nodup_append]
      refine ⟨h.distinct, nodup_singleton _, ?_⟩
      intro a ha b hb
      obtain ⟨inst, hinst, rfl⟩ := mem_map.mp ha
      rw [map_singleton, mem_singleton] at hb
      rw [hb]
      exact fun heq => find?_eq_none.mp hnone inst hinst (beq_iff_eq.mpr heq)

theorem WellFormed.removeInstance (h : WellFormed svc) (instname : Option Bytes) :
    WellFormed (svc.removeInstance instname).1 := by
  obtain heq | ⟨name, hsome, heq⟩ := removeInstance_cases svc instname
  · rwa [heq]
  · rw [heq]
    obtain ⟨inst, hinst⟩ := Option.isSome_iff_exists.mp hsome
    have hmem : inst ∈ svc.instList := mem_of_find?_eq_some hinst
    have hfound : (inst.instName == name) = true :=
      find?_some (p := fun i : ServiceInfo => i.instName == name) hinst
    have hsub : ∀ {inst}, inst ∈ svc.instList.eraseP (fun inst => inst.instName == name) →
        inst ∈ svc.instList := mem_of_mem_eraseP
    refine ⟨⟨⟨h.texts.pkgName, h.texts.serviceName, h.texts.executive, h.texts.ipaddr,
      fun i hi => h.texts.insts i (hsub hi)⟩, ?_, fun i hi => h.named i (hsub hi)⟩, h.base,
      fun _ => h.multi (ne_nil_of_mem hmem), fun i hi => h.insts i (hsub hi), ?_⟩
    · show svc.instcnt - 1 = _
      have hlen : svc.instList.length =
          (svc.instList.eraseP fun inst => inst.instName == name).length + 1 := by
        rw [length_eraseP_of_mem hmem hfound]
        have hpos := length_pos_of_mem hmem
        omega
      rw [h.instcnt, hlen, UInt32.ofNat_add]
      exact UInt32.add_sub_cancel _ _
    · exact (eraseP_sublist.map ServiceInfo.instName).nodup h.distinct

/-- The names of a service stay. -/
def KeepsNames (f : ServiceImpl → ServiceImpl × ℤ) : Prop :=
  ∀ svc, (f svc).1.pkgName = svc.pkgName ∧ (f svc).1.serviceName = svc.serviceName

variable {f : ServiceImpl → ServiceImpl × ℤ}

theorem KeepsNames.named (hf : KeepsNames f) (svc : ServiceImpl) (pkgname servicename : Bytes) :
    (f svc).1.Named pkgname servicename = svc.Named pkgname servicename := by
  rw [ServiceImpl.Named, (hf svc).1, (hf svc).2, ServiceImpl.Named]

variable (instname : Option Bytes)

theorem addInstance_keepsNames : KeepsNames fun svc => svc.addInstance instname := by
  intro svc
  obtain heq | ⟨name, -, -, -, -, heq⟩ := addInstance_cases svc instname
  · rw [heq]
    exact ⟨rfl, rfl⟩
  · rw [heq]
    exact ⟨rfl, rfl⟩

theorem removeInstance_keepsNames : KeepsNames fun svc => svc.removeInstance instname := by
  intro svc
  obtain heq | ⟨name, -, heq⟩ := removeInstance_cases svc instname
  · rw [heq]
    exact ⟨rfl, rfl⟩
  · rw [heq]
    exact ⟨rfl, rfl⟩

/-- The number of instances grows by one at most. -/
theorem length_addInstance_le (svc : ServiceImpl) (instname : Option Bytes) :
    (svc.addInstance instname).1.instList.length ≤ svc.instList.length + 1 := by
  obtain heq | ⟨name, -, -, -, -, heq⟩ := addInstance_cases svc instname
  · rw [heq]
    exact Nat.le_succ _
  · rw [heq, length_append, length_singleton]

/-- An operation on a service that keeps what is kept of it, and its names. -/
theorem Kept.onService (h : Kept m) (pkgname servicename : Bytes)
    (hf : ∀ svc, WellFormed svc → WellFormed (f svc).1) (hnames : KeepsNames f) :
    Kept (m.onService pkgname servicename f) := by
  have hkept : ∀ svc : ServiceImpl,
      (if svc.Named pkgname servicename then (f svc).1 else svc).pkgName = svc.pkgName ∧
        (if svc.Named pkgname servicename then (f svc).1 else svc).serviceName =
          svc.serviceName := by
    intro svc
    split
    · exact hnames svc
    · exact ⟨rfl, rfl⟩
  refine ⟨?_, ?_, ?_⟩
  · rw [ServiceMgr.onService, length_map]
    exact h.cnt
  · rw [ServiceMgr.onService, Distinct, pairwise_map]
    refine h.distinct.imp fun {a b} hab => ?_
    rw [ServiceImpl.Named, (hkept a).1, (hkept a).2, (hkept b).1, (hkept b).2]
    exact hab
  · intro svc hsvc
    obtain ⟨old, hold, rfl⟩ := mem_map.mp hsvc
    split
    · exact hf old (h.svcs old hold)
    · exact h.svcs old hold

theorem Kept.addService (h : Kept m) (pkgname servicename : CString)
    (executive ipaddr : Option CString) (port version : UInt32) (attributes : Flags) :
    Kept (m.addService pkgname.val servicename.val (text? executive) (text? ipaddr) port version
      attributes).1 := by
  rw [ServiceMgr.addService]
  split
  · exact h
  · rename_i hnone
    refine ⟨?_, ?_, forall_mem_append.mpr ⟨h.svcs, forall_mem_singleton.mpr ?_⟩⟩
    · show m.serviceCnt + 1 = _
      rw [h.cnt, length_append, length_singleton]
      rfl
    · refine pairwise_append.mpr ⟨h.distinct, pairwise_singleton _ _, ?_⟩
      intro svc hsvc new hnew
      rw [mem_singleton.mp hnew]
      have hall := find?_eq_none.mp (Option.not_isSome_iff_eq_none.mp hnone) svc hsvc
      exact Bool.eq_false_iff.mpr hall
    · exact ⟨⟨⟨pkgname.2, servicename.2, zero_not_mem_text? executive, zero_not_mem_text? ipaddr,
        fun _ hi => absurd hi not_mem_nil⟩, rfl, fun _ hi => absurd hi not_mem_nil⟩, rfl,
        fun hne => absurd rfl hne, fun _ hi => absurd hi not_mem_nil, nodup_nil⟩

theorem Kept.removeService (h : Kept m) (pkgname servicename : Bytes) :
    Kept (m.removeService pkgname servicename).1 := by
  rw [ServiceMgr.removeService]
  split
  · exact h
  · rename_i hsome
    have hfind : m.findService pkgname servicename ≠ none := fun hnone => hsome (by rw [hnone]; rfl)
    obtain ⟨svc, hsvc⟩ := Option.ne_none_iff_exists'.mp hfind
    have hmem : svc ∈ m.serviceInfoList := mem_of_find?_eq_some hsvc
    have hfound : svc.Named pkgname servicename = true :=
      find?_some (p := fun svc : ServiceImpl => svc.Named pkgname servicename) hsvc
    refine ⟨?_, h.distinct.sublist eraseP_sublist,
      fun s hs => h.svcs s (mem_of_mem_eraseP hs)⟩
    show m.serviceCnt - 1 = _
    have hpos := length_pos_of_mem hmem
    rw [h.cnt, length_eraseP_of_mem hmem hfound]
    omega

theorem Kept.apply (h : Kept m) (op : Op) : Kept (m.apply op) := by
  cases op with
  | addService pkgname servicename executive ipaddr port version attributes =>
      exact h.addService pkgname servicename executive ipaddr port version attributes
  | removeService pkgname servicename => exact h.removeService pkgname.val servicename.val
  | addInstance pkgname servicename instname =>
      exact h.onService pkgname.val servicename.val (fun _ hsvc => hsvc.addInstance instname)
        (addInstance_keepsNames (text? instname))
  | removeInstance pkgname servicename instname =>
      exact h.onService pkgname.val servicename.val
        (fun _ hsvc => hsvc.removeInstance (text? instname))
        (removeInstance_keepsNames (text? instname))

theorem kept_run (ops : List Op) : Kept (run ops) :=
  List.foldlRecOn ops ServiceMgr.apply
    ⟨rfl, List.Pairwise.nil, fun _ hsvc => absurd hsvc not_mem_nil⟩
    fun _ h op _ => h.apply op

end ServiceMgr

end V2I.Mware
