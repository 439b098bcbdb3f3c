import V2I.Mware.ServiceMgr.Saved

/-!
# V2I.Mware.ServiceMgr.Loaded

The service configuration file read back: what was saved is loaded as it was, and what was
changed behind the digest is refused. A state without services is the exception: its string
section is empty, so the header on disk is not the one whose fields are digested on loading.
-/

namespace V2I.Mware

open ByteFile List Option

/-! ## flags -/

theorem Flags.weight_eq (b : Bool) (n : ℕ) : weight b n = b.toNat * n := by
  cases b
  · exact (Nat.zero_mul n).symm
  · exact (Nat.one_mul n).symm

theorem Flags.toNat_beq_one (b : Bool) : (b.toNat == 1) = b := by cases b <;> rfl

theorem Flags.ofUInt32_toUInt32 (f : Flags) : ofUInt32 f.toUInt32 = f := by
  obtain ⟨ga, sh, si, ig, idf, st, ru, re⟩ := f
  have hsi := si.isLt
  have hre := re.isLt
  have hga := Bool.toNat_le ga
  have hsh := Bool.toNat_le sh
  have hig := Bool.toNat_le ig
  have hidf := Bool.toNat_le idf
  have hst := Bool.toNat_le st
  have hru := Bool.toNat_le ru
  obtain ⟨n, hn⟩ : ∃ n, n = ga.toNat * 1 + sh.toNat * 2 + si.toNat * 4 + ig.toNat * 16 +
    idf.toNat * 32 + st.toNat * 64 + ru.toNat * 128 + re.toNat * 256 := ⟨_, rfl⟩
  have hnum : (toUInt32 ⟨ga, sh, si, ig, idf, st, ru, re⟩).toNat = n := by
    rw [toUInt32, UInt32.toNat_ofNat']
    simp only [weight_eq]
    omega
  have h₁ : n % 2 = ga.toNat := by omega
  have h₂ : n / 2 % 2 = sh.toNat := by omega
  have h₃ : BitVec.ofNat 2 (n / 4) = si := by
    apply BitVec.eq_of_toNat_eq
    rw [BitVec.toNat_ofNat]
    omega
  have h₄ : n / 16 % 2 = ig.toNat := by omega
  have h₅ : n / 32 % 2 = idf.toNat := by omega
  have h₆ : n / 64 % 2 = st.toNat := by omega
  have h₇ : n / 128 % 2 = ru.toNat := by omega
  have h₈ : BitVec.ofNat 24 (n / 256) = re := by
    apply BitVec.eq_of_toNat_eq
    rw [BitVec.toNat_ofNat]
    omega
  rw [ofUInt32, hnum, h₁, h₂, h₃, h₄, h₅, h₆, h₇, h₈]
  simp only [toNat_beq_one]

namespace ServiceMgr

variable {m : ServiceMgr} {svc : ServiceImpl} {hdr : ServiceConfigHeader}
  {entries : List ServiceEntry} {offsets : List UInt32} {sect : Bytes} {sha256 : Bytes → Digest}

/-! ## the text that is digested -/

/-- The text that `save_config_file` takes the digest of. -/
def savedText (m : ServiceMgr) : Option Bytes :=
  m.saveSections.map fun r => (digestText r.1.1 r.1.2).1

theorem drop_header (hmagic : hdr.magic.length = 24) (back : Bytes) :
    (hdr.bytes ++ back).drop 60 = words hdr.fields.tail ++ back := by
  have hfront : hdr.bytes ++ back =
      (hdr.magic ++ hdr.digest.val ++ u32 hdr.size) ++ (words hdr.fields.tail ++ back) := by
    simp only [ServiceConfigHeader.bytes, ServiceConfigHeader.fields, words_cons, tail_cons,
      append_assoc]
  have hlen : 60 = (hdr.magic ++ hdr.digest.val ++ u32 hdr.size).length := by
    rw [length_append, length_append, hmagic, hdr.digest.2, length_u32]
  rw [hfront, hlen, drop_left]

theorem drop_digest (hmagic : hdr.magic.length = 24) (back : Bytes) :
    (hdr.bytes ++ back).drop 56 = words hdr.fields ++ back := by
  have hlen : 56 = (hdr.magic ++ hdr.digest.val).length := by
    rw [length_append, hmagic, hdr.digest.2]
  rw [ServiceConfigHeader.bytes, append_assoc, hlen, drop_left]

theorem drop_all (hmagic : hdr.magic.length = 24) (back : Bytes) :
    (hdr.bytes ++ back).drop sizeofHeader = back :=
  drop_left' (length_header hmagic)

theorem take_digest (hmagic : hdr.magic.length = 24) (back : Bytes) :
    ((hdr.bytes ++ back).drop 24).take 32 = hdr.digest.val := by
  have hfront : hdr.bytes ++ back =
      hdr.magic ++ (hdr.digest.val ++ (words hdr.fields ++ back)) := by
    simp only [ServiceConfigHeader.bytes, append_assoc]
  rw [hfront, ← hmagic, drop_left]
  exact take_left' hdr.digest.2

/-- What stands in the file behind the header. -/
def sections (entries : List ServiceEntry) (offsets : List UInt32) (sect : Bytes) : Bytes :=
  entryBytes entries ++ words offsets ++ sect

/-- The file of a state with services. -/
theorem saveConfigFile_does (hcnt : m.serviceCnt = m.serviceInfoList.length)
    (hsvcs : ∀ svc ∈ m.serviceInfoList, Writable svc) (hfits : Fits m)
    (hne : m.serviceInfoList ≠ []) (sha256 : Bytes → Digest) :
    ∃ hdr entries offsets sect,
      m.saveConfigFile sha256 = some (some (hdr.bytes ++ sections entries offsets sect), 0) ∧
      m.savedText = some (words hdr.fields ++ sections entries offsets sect) ∧
      hdr.digest = sha256 (words hdr.fields ++ sections entries offsets sect) ∧
      hdr.size = UInt32.ofNat (fileSize m) ∧ Stored m hdr entries offsets sect := by
  obtain ⟨file, hdr, entries, offsets, sect, hsave, hdata, hstored⟩ :=
    saveSections_does hcnt hsvcs hfits hne
  have hlen : file.data.length = fileSize m := by
    rw [hdata, length_append, length_header hstored.magic]
    exact hstored.size
  have hdrop : file.data.drop 60 = words hdr.fields.tail ++ sections entries offsets sect := by
    rw [hdata]
    exact drop_header hstored.magic _
  -- the text is that of the fields of the final header
  obtain ⟨text, htext⟩ : ∃ text, text = words (UInt32.ofNat (fileSize m) :: hdr.fields.tail) ++
      sections entries offsets sect := ⟨_, rfl⟩
  have hdigest : digestText file hdr = (text, { hdr with size := UInt32.ofNat (fileSize m) }) := by
    rw [digestText, hlen, hdrop, htext, words_cons, append_assoc]
  refine ⟨{ hdr with size := UInt32.ofNat (fileSize m), digest := sha256 text }, entries, offsets,
    sect, ?_, ?_, ?_, rfl, ?_⟩
  · simp only [saveConfigFile, hsave, bind_eq_bind, bind_some, ne_eq,
      not_true_eq_false, if_false, hdigest, AbsFile.write, AbsFile.seekSet, hdata]
    refine congrArg (fun data => some (some data, 0)) (writeAt_header hstored.magic ?_ _)
    exact hstored.magic
  · rw [savedText, hsave, map_some, hdigest, htext]
    rfl
  · rw [htext]
    rfl
  · exact ⟨hstored.magic, hstored.serviceCount, hstored.instanceCount, hstored.stringSize,
      hstored.total, hstored.room, hstored.describes⟩

/-! ## reading -/

variable (fresh : ℕ → UInt8)

theorem readBuffer_append (part back : Bytes) {n : ℕ} (hn : n = part.length) :
    readBuffer fresh (part ++ back) n = part := by
  have hzero : n - (part ++ back).length = 0 := by
    rw [length_append]
    omega
  rw [readBuffer, hzero, hn, take_left]
  exact append_nil part

/-- The entry at an index. -/
theorem read_entry (front : List ServiceEntry) (e : ServiceEntry) (back : List ServiceEntry) :
    ServiceEntry.read ((entryBytes (front ++ e :: back)).drop (front.length * sizeofEntry)) =
      some e := by
  have hbytes : entryBytes (front ++ e :: back) =
      entryBytes front ++ (words e.fields ++ entryBytes back) := by
    simp only [entryBytes, flatMap_append, flatMap_cons, words_append]
  have hfields : readWords 9 (words e.fields ++ entryBytes back) = some e.fields :=
    readWords_words e.fields (entryBytes back)
  rw [hbytes, drop_left' (by rw [length_entryBytes, Nat.mul_comm]), ServiceEntry.read, hfields]
  rfl

/-- A service with some of its instances. -/
def withInsts (svc : ServiceImpl) (insts : List ServiceInfo) : ServiceImpl :=
  { svc with instList := insts, instcnt := UInt32.ofNat insts.length }

theorem withInsts_instList (h : Writable svc) : withInsts svc svc.instList = svc := by
  rw [withInsts, ← h.instcnt]

theorem WellFormed.isDefault (h : WellFormed svc) : svc.flags.isDefault = true :=
  congrArg (fun i : ServiceInfo => i.flags.isDefault) h.base

/-- The next instance is added. -/
theorem addInstance_withInsts (h : WellFormed svc) {done rest : List ServiceInfo}
    {inst : ServiceInfo} (hlist : svc.instList = done ++ inst :: rest) :
    ((withInsts svc done).addInstance (some inst.instName)).1 = withInsts svc (done ++ [inst]) := by
  have hmem : inst ∈ svc.instList := by rw [hlist]; simp
  have hname : ((some inst.instName).getD []).isEmpty = false := by
    simpa using h.named inst hmem
  have hdefault : (withInsts svc done).isDefaultService = true := h.isDefault
  have hmulti : (withInsts svc done).checkMultiInstance = true :=
    h.multi (ne_nil_of_mem hmem)
  have hnew : (withInsts svc done).findInst inst.instName = none := by
    have hdistinct := h.distinct
    rw [hlist, List.map_append, List.map_cons, nodup_append] at hdistinct
    refine find?_eq_none.mpr fun other hother heq => ?_
    exact hdistinct.2.2 _ (mem_map_of_mem hother) _ mem_cons_self (beq_iff_eq.mp heq)
  rw [ServiceImpl.addInstance, hname, hdefault, hmulti, getD_some, hnew]
  have hinst := h.insts inst hmem
  have hcnt : (withInsts svc done).instcnt + 1 = UInt32.ofNat (done ++ [inst]).length := by
    rw [length_append, length_singleton, UInt32.ofNat_add]
    rfl
  simp only [Bool.false_eq_true, if_false, Bool.not_true, isSome_none, hcnt]
  rw [withInsts, withInsts]
  congr 2
  rw [hinst]
  rfl

variable {front : List ServiceImpl}

/-- An operation on the last service. -/
theorem onService_last {pkgname servicename : Bytes}
    (hfront : ∀ svc ∈ front, svc.Named pkgname servicename = false) (last : ServiceImpl)
    (hlast : last.Named pkgname servicename = true) (cnt : ℤ) (f : ServiceImpl → ServiceImpl × ℤ) :
    onService ⟨front ++ [last], cnt⟩ pkgname servicename f = ⟨front ++ [(f last).1], cnt⟩ := by
  have hmap : (front.map fun svc => if svc.Named pkgname servicename then (f svc).1 else svc) =
      front.map id :=
    map_congr_left fun svc hmem => by
      rw [hfront svc hmem]
      rfl
  rw [onService]
  simp only [List.map_append, hmap, List.map_id, List.map_cons, List.map_nil, hlast, if_true]

theorem named_self (svc : ServiceImpl) : svc.Named svc.pkgName svc.serviceName = true := by
  rw [ServiceImpl.Named, beq_self_eq_true, beq_self_eq_true]
  rfl

/-- The instances of the last service, one by one. -/
theorem loadInstances_does (h : WellFormed svc)
    (hfront : ∀ other ∈ front, other.Named svc.pkgName svc.serviceName = false) {cnt : ℤ}
    {mid : List UInt32} {insts : List ServiceInfo}
    (hnames : Forall₂ (fun off inst => stringAt sect off = some inst.instName) mid insts)
    {done : List ServiceInfo} (hlist : svc.instList = done ++ insts) {before after : List UInt32}
    (hoffsets : offsets = before ++ mid ++ after) :
    loadInstances (words offsets) sect svc.pkgName svc.serviceName
      ⟨front ++ [withInsts svc done], cnt⟩ (4 * before.length) mid.length =
        some ⟨front ++ [svc], cnt⟩ := by
  induction hnames generalizing done before with
  | nil =>
      rw [append_nil] at hlist
      rw [← hlist, withInsts_instList h.toWritable]
      rfl
  | @cons off inst mid insts hname _ ih =>
      have hread : readU32 ((words offsets).drop (4 * before.length)) = some off := by
        have htable := readU32_drop_words before off (mid ++ after) []
        rwa [append_nil, ← cons_append, ← append_assoc, ← hoffsets] at htable
      rw [length_cons, loadInstances, hread]
      simp only [bind_eq_bind, bind_some, hname]
      rw [onService_last hfront (withInsts svc done) (named_self svc) cnt,
        addInstance_withInsts h hlist]
      have hnext : 4 * before.length + 4 = 4 * (before ++ [off]).length := by
        rw [length_append, length_singleton]
        omega
      rw [hnext]
      have hlist' : svc.instList = done ++ [inst] ++ insts := by
        rw [hlist, append_assoc]
        rfl
      have hoffsets' : offsets = before ++ [off] ++ mid ++ after := by
        rw [hoffsets, append_assoc, append_assoc, append_assoc]
        rfl
      exact ih hlist' hoffsets'

/-- An entry is read, and its service is the next. -/
theorem loadService_does (h : WellFormed svc)
    (hfront : ∀ other ∈ front, other.Named svc.pkgName svc.serviceName = false) (cnt : ℤ)
    (hlen : svc.instList.length < 2 ^ 32) {e : ServiceEntry} (hdescr : Describes sect offsets e svc)
    (es₁ es₂ : List ServiceEntry) :
    loadService (entryBytes (es₁ ++ e :: es₂)) (words offsets) sect ⟨front, cnt⟩ es₁.length =
      some ⟨front ++ [svc], cnt + 1⟩ := by
  obtain ⟨before, mid, after, hoffsets, hinstoffset, hnames⟩ := hdescr.insts
  have hinstcnt : e.instcnt.toNat = mid.length := by
    rw [hdescr.instcnt, h.instcnt, toNat_ofNat_of_lt hlen, hnames.length_eq]
  have hflags : Flags.ofUInt32 e.flag = svc.flags := by
    rw [hdescr.flag, Flags.ofUInt32_toUInt32]
  obtain ⟨ip, hip⟩ : ∃ ip, ip = if e.ipaddr = 0 then some none
    else (stringAt sect e.ipaddr).map some := ⟨_, rfl⟩
  have hipaddr : ∃ text, ip = some text ∧ text.getD [] = svc.ipaddr := by
    have hdip := hdescr.ipaddr
    split at hdip
    · rw [if_neg hdip.1, hdip.2] at hip
      exact ⟨some svc.ipaddr, hip, rfl⟩
    · rename_i hnil
      rw [if_pos hdip] at hip
      exact ⟨none, hip, (length_eq_zero_iff.mp (by omega)).symm⟩
  obtain ⟨text, rfl, htext⟩ := hipaddr
  have hnone : findService ⟨front, cnt⟩ svc.pkgName svc.serviceName = none :=
    find?_eq_none.mpr fun other hother => by
      rw [hfront other hother]
      exact Bool.false_ne_true
  have hadd : addService ⟨front, cnt⟩ svc.pkgName svc.serviceName (some svc.executive) text e.port
      e.version (.ofUInt32 e.flag) = (⟨front ++ [withInsts svc []], cnt + 1⟩, true) := by
    have hbase : ServiceInfo.new svc.pkgName svc.serviceName none (some svc.executive) text e.port
        e.version (.ofUInt32 e.flag) = svc.toServiceInfo := by
      rw [hflags, hdescr.port, hdescr.version]
      conv_rhs => rw [h.base]
      rw [ServiceInfo.new, htext]
      rfl
    rw [addService, hnone, hbase]
    rfl
  rw [loadService, read_entry]
  simp only [bind_eq_bind, bind_some, hdescr.pkgname, hdescr.servicename, hdescr.executive, ← hip,
    hadd, Bool.not_true, Bool.false_eq_true, if_false, hinstcnt, hinstoffset]
  exact loadInstances_does h hfront hnames rfl hoffsets

theorem loadServices_does {es₁ es₂ : List ServiceEntry} {back : List ServiceImpl}
    (hdescr : Forall₂ (Describes sect offsets) es₂ back) (hentries : entries = es₁ ++ es₂)
    (hwell : ∀ svc ∈ back, WellFormed svc) (hlen : ∀ svc ∈ back, svc.instList.length < 2 ^ 32)
    (hdistinct : Distinct (front ++ back)) (cnt : ℤ) :
    loadServices (entryBytes entries) (words offsets) sect ⟨front, cnt⟩ es₁.length es₂.length =
      some ⟨front ++ back, cnt + back.length⟩ := by
  induction hdescr generalizing es₁ front cnt with
  | nil =>
      have hcnt : cnt + (([] : List ServiceImpl).length : ℤ) = cnt := Int.add_zero cnt
      rw [append_nil, hcnt]
      rfl
  | @cons e svc es₂ back hd _ ih =>
      have hfront : ∀ other ∈ front, other.Named svc.pkgName svc.serviceName = false :=
        fun other hother => (pairwise_append.mp hdistinct).2.2 other hother svc
          mem_cons_self
      have hload := loadService_does (hwell svc mem_cons_self) hfront cnt
        (hlen svc mem_cons_self) hd es₁ es₂
      rw [← hentries] at hload
      rw [length_cons, loadServices, hload]
      have hentries' : entries = es₁ ++ [e] ++ es₂ := by rw [hentries, append_cons]
      have hdistinct' : Distinct (front ++ [svc] ++ back) := by rwa [append_assoc]
      have hnext := ih hentries' (fun s hs => hwell s (mem_cons_of_mem svc hs))
        (fun s hs => hlen s (mem_cons_of_mem svc hs)) hdistinct' (cnt + 1)
      rw [length_append, length_singleton] at hnext
      rw [bind_eq_bind, bind_some, hnext, append_assoc, length_cons]
      have hcnt : cnt + 1 + (back.length : ℤ) = cnt + ((back.length + 1 : ℕ) : ℤ) := by omega
      rw [hcnt]
      rfl

/-! ## the whole file -/

/-- The text whose digest is compared, from what is read behind the header. -/
def loadText (fresh : ℕ → UInt8) (hdr : ServiceConfigHeader) (rest : Bytes) : Bytes :=
  words hdr.fields ++ readBuffer fresh rest (hdr.serviceCount * 36).toNat ++
    readBuffer fresh (rest.drop (hdr.serviceCount * 36).toNat) (hdr.instanceCount * 4).toNat ++
    readBuffer fresh
      (rest.drop ((hdr.serviceCount * 36).toNat + (hdr.instanceCount * 4).toNat))
      hdr.stringSize.toNat

theorem loadConfigFile_of_fields {file : Bytes}
    (hfields : readWords 7 (file.drop 56) = some hdr.fields) (fresh : ℕ → UInt8) :
    loadConfigFile sha256 fresh {} file =
      if hdr.size < 56 then some ({}, -1)
      else if (sha256 (loadText fresh hdr (file.drop sizeofHeader))).val ≠ (file.drop 24).take 32
      then some ({}, -2)
      else (loadServices
        (readBuffer fresh (file.drop sizeofHeader) (hdr.serviceCount * 36).toNat)
        (readBuffer fresh ((file.drop sizeofHeader).drop (hdr.serviceCount * 36).toNat)
          (hdr.instanceCount * 4).toNat)
        (readBuffer fresh ((file.drop sizeofHeader).drop
          ((hdr.serviceCount * 36).toNat + (hdr.instanceCount * 4).toNat)) hdr.stringSize.toNat)
        {} 0 hdr.serviceCount.toNat).map fun m => (m, 0) := by
  rw [loadConfigFile, hfields]
  rfl

/-- A file is loaded only where the text that is read is one with the digest of the file. -/
theorem loadConfigFile_refused {file : Bytes} {digest : Digest} {fresh : ℕ → UInt8}
    (hdigest : (file.drop 24).take 32 = digest.val)
    (htext : ∀ hdr : ServiceConfigHeader, readWords 7 (file.drop 56) = some hdr.fields →
      sha256 (loadText fresh hdr (file.drop sizeofHeader)) ≠ digest) :
    ∃ ret, ret ≠ 0 ∧ loadConfigFile sha256 fresh {} file = some ({}, ret) := by
  cases hread : readWords 7 (file.drop 56) with
  | none =>
      refine ⟨-1, by decide, ?_⟩
      rw [loadConfigFile, hread]
      rfl
  | some xs =>
      obtain ⟨_, hlen⟩ := words_readWords hread
      have hhdr : ∃ hdr : ServiceConfigHeader, xs = hdr.fields := by
        match xs, hlen with
        | [a, b, c, d, e, f, g], _ => exact ⟨⟨[], digest, a, b, c, d, e, f, g⟩, rfl⟩
      obtain ⟨hdr, rfl⟩ := hhdr
      rw [loadConfigFile_of_fields hread]
      by_cases hsize : hdr.size < 56
      · exact ⟨-1, by decide, if_pos hsize⟩
      · refine ⟨-2, by decide, ?_⟩
        have hne : (sha256 (loadText fresh hdr (file.drop sizeofHeader))).val ≠
            (file.drop 24).take 32 := by
          rw [hdigest]
          exact fun heq => htext hdr hread (Subtype.ext heq)
        rw [if_neg hsize, if_pos hne]

theorem length_readBuffer (rest : Bytes) (n : ℕ) : (readBuffer fresh rest n).length = n := by
  rw [readBuffer, length_append, length_take, length_map, length_range]
  omega

/-- The length of the text that is read depends on the header only. -/
theorem length_loadText (hdr : ServiceConfigHeader) (rest : Bytes) :
    (loadText fresh hdr rest).length = 28 + (hdr.serviceCount * 36).toNat +
      (hdr.instanceCount * 4).toNat + hdr.stringSize.toNat := by
  simp only [loadText, length_append, length_readBuffer, length_words]
  rfl

/-- Where the sizes in the header are those of what follows it, all of it is read. -/
theorem loadText_eq {rest : Bytes}
    (hlen : rest.length = (hdr.serviceCount * 36).toNat + (hdr.instanceCount * 4).toNat +
      hdr.stringSize.toNat) : loadText fresh hdr rest = words hdr.fields ++ rest := by
  obtain ⟨a, ha⟩ : ∃ a, a = (hdr.serviceCount * 36).toNat := ⟨_, rfl⟩
  obtain ⟨b, hb⟩ : ∃ b, b = (hdr.instanceCount * 4).toNat := ⟨_, rfl⟩
  rw [← ha, ← hb] at hlen
  have hsplit : rest = rest.take a ++ ((rest.drop a).take b ++ (rest.drop (a + b))) := by
    rw [← drop_drop, take_append_drop, take_append_drop]
  have h₁ : readBuffer fresh rest a = rest.take a := by
    conv_lhs => rw [hsplit]
    exact readBuffer_append fresh _ _ (by rw [length_take]; omega)
  have h₂ : readBuffer fresh (rest.drop a) b = (rest.drop a).take b := by
    have h := readBuffer_append fresh ((rest.drop a).take b) ((rest.drop a).drop b) (n := b)
      (by rw [length_take, length_drop]; omega)
    rwa [take_append_drop] at h
  have h₃ : readBuffer fresh (rest.drop (a + b)) hdr.stringSize.toNat = rest.drop (a + b) := by
    have h := readBuffer_append fresh (rest.drop (a + b)) [] (n := hdr.stringSize.toNat)
      (by rw [length_drop]; omega)
    rwa [append_nil] at h
  rw [loadText, ← ha, ← hb, h₁, h₂, h₃]
  conv_rhs => rw [hsplit]
  simp only [append_assoc]

/-- The sizes in the header of a saved file. -/
theorem Stored.sizes (h : Stored m hdr entries offsets sect) (hfits : Fits m)
    (hsvcs : ∀ svc ∈ m.serviceInfoList, Writable svc) :
    (hdr.serviceCount * 36).toNat = (entryBytes entries).length ∧
      (hdr.instanceCount * 4).toNat = (words offsets).length ∧
      hdr.stringSize.toNat = sect.length := by
  have hentries := hfits.entries
  have hsect := hfits.sect
  have hmax := maxSect_lt
  have hinsts := two_mul_instanceTotal_le_sectSize hsvcs
  have hlen : entries.length = m.serviceInfoList.length := h.describes.length_eq
  rw [← hlen, sizeofEntry] at hentries
  refine ⟨?_, ?_, ?_⟩
  · rw [h.serviceCount, UInt32.toNat_mul, toNat_ofNat_of_lt (by omega), length_entryBytes,
      show (36 : UInt32).toNat = 36 from rfl, sizeofEntry]
    omega
  · have htotal : 2 * offsets.length < 2 ^ 31 := by
      rw [h.total]
      rw [maxSect] at hsect
      omega
    rw [h.instanceCount, UInt32.toNat_mul, toNat_ofNat_of_lt (by omega), length_words,
      show (4 : UInt32).toNat = 4 from rfl]
    omega
  · rw [h.stringSize, toNat_ofNat_of_lt (by rw [h.room]; omega)]

/-- A file with the header of a saved one is read as it was saved. -/
theorem loadConfigFile_does (h : Stored m hdr entries offsets sect) (hfits : Fits m)
    (hsize : hdr.size = UInt32.ofNat (fileSize m))
    (hdigest : hdr.digest = sha256 (words hdr.fields ++ sections entries offsets sect))
    (hcnt : m.serviceCnt = m.serviceInfoList.length)
    (hsvcs : ∀ svc ∈ m.serviceInfoList, WellFormed svc) (hdistinct : Distinct m.serviceInfoList)
    (fresh : ℕ → UInt8) :
    loadConfigFile sha256 fresh {} (hdr.bytes ++ sections entries offsets sect) = some (m, 0) := by
  obtain ⟨hs, hi, ht⟩ := h.sizes hfits fun svc hsvc => (hsvcs svc hsvc).toWritable
  have hfields : readWords 7 ((hdr.bytes ++ sections entries offsets sect).drop 56) =
      some hdr.fields := by
    rw [drop_digest h.magic]
    exact readWords_words hdr.fields _
  have hlarge : ¬ hdr.size < 56 := by
    rw [hsize, UInt32.lt_iff_toNat_lt, UInt32.toNat_ofNat', show (56 : UInt32).toNat = 56 from rfl,
      Nat.not_lt]
    exact hfits.size
  have htext : loadText fresh hdr (sections entries offsets sect) =
      words hdr.fields ++ sections entries offsets sect :=
    loadText_eq fresh (by rw [sections, length_append, length_append, hs, hi, ht])
  rw [loadConfigFile_of_fields hfields, if_neg hlarge, drop_all h.magic, take_digest h.magic,
    htext, ← hdigest, if_neg (not_not.mpr rfl)]
  -- the three parts
  have hentries : readBuffer fresh (sections entries offsets sect) (hdr.serviceCount * 36).toNat =
      entryBytes entries := by
    rw [sections, append_assoc]
    exact readBuffer_append fresh _ _ hs
  have hinsts : readBuffer fresh ((sections entries offsets sect).drop
      (hdr.serviceCount * 36).toNat) (hdr.instanceCount * 4).toNat = words offsets := by
    rw [sections, append_assoc, hs, drop_left]
    exact readBuffer_append fresh _ _ hi
  have hstrings : readBuffer fresh ((sections entries offsets sect).drop
      ((hdr.serviceCount * 36).toNat + (hdr.instanceCount * 4).toNat)) hdr.stringSize.toNat =
      sect := by
    rw [sections, hs, hi, ← length_append, drop_left]
    have hall := readBuffer_append fresh sect [] ht
    rwa [append_nil] at hall
  rw [hentries, hinsts, hstrings]
  have hleft : hdr.serviceCount.toNat = entries.length := by
    have hlt := hfits.entries
    rw [h.serviceCount, toNat_ofNat_of_lt]
    rw [h.describes.length_eq]
    exact Nat.lt_of_le_of_lt (Nat.le_mul_of_pos_left _ (by decide)) hlt
  have hlens : ∀ svc ∈ m.serviceInfoList, svc.instList.length < 2 ^ 32 := by
    intro svc hsvc
    have hle : svc.instList.length ≤ instanceTotal m.serviceInfoList := by
      obtain ⟨front, back, hlist⟩ := append_of_mem hsvc
      rw [hlist, instanceTotal_split]
      omega
    have hinsts := two_mul_instanceTotal_le_sectSize fun svc hsvc => (hsvcs svc hsvc).toWritable
    have hsect := hfits.sect
    have hmax := maxSect_lt
    omega
  rw [hleft]
  have hentries : entries = [] ++ entries := (nil_append entries).symm
  have hload := loadServices_does h.describes hentries hsvcs hlens
    (show Distinct ([] ++ m.serviceInfoList) from hdistinct) 0
  rw [nil_append, Int.zero_add, ← hcnt] at hload
  exact congrArg (Option.map fun m => (m, 0)) hload

/-- A file that is changed behind the digest is refused. -/
theorem loadConfigFile_changed (h : Stored m hdr entries offsets sect) (hfits : Fits m)
    (hsvcs : ∀ svc ∈ m.serviceInfoList, Writable svc)
    (hsha : ∀ text, sha256 text = hdr.digest →
      text = words hdr.fields ++ sections entries offsets sect)
    {back : Bytes} (hlen : back.length = (words hdr.fields ++ sections entries offsets sect).length)
    (hne : back ≠ words hdr.fields ++ sections entries offsets sect) (fresh : ℕ → UInt8) :
    ∃ ret, ret ≠ 0 ∧
      loadConfigFile sha256 fresh {} (hdr.magic ++ hdr.digest.val ++ back) = some ({}, ret) := by
  have hfront : (hdr.magic ++ hdr.digest.val).length = 56 := by
    rw [length_append, h.magic, hdr.digest.2]
  have hback : (hdr.magic ++ hdr.digest.val ++ back).drop 56 = back := drop_left' hfront
  have hdrop : (hdr.magic ++ hdr.digest.val ++ back).drop sizeofHeader = back.drop 28 := by
    rw [show sizeofHeader = 56 + 28 from rfl, ← drop_drop, hback]
  have htake : ((hdr.magic ++ hdr.digest.val ++ back).drop 24).take 32 = hdr.digest.val := by
    rw [append_assoc, drop_left' h.magic]
    exact take_left' hdr.digest.2
  refine loadConfigFile_refused htake fun hdr' hfields hsame => hne ?_
  rw [hback] at hfields
  rw [hdrop] at hsame
  have hwords : words hdr'.fields = back.take 28 := (words_readWords hfields).1
  have htext := hsha _ hsame
  -- the header is the one that was saved, and so are the sizes
  have hsame : words hdr'.fields = words hdr.fields := by
    rw [loadText, append_assoc, append_assoc] at htext
    exact (append_inj htext (by rw [length_words, length_words]; rfl)).1
  have hlist : hdr'.fields = hdr.fields := words_injective rfl hsame
  obtain ⟨hs, hi, ht⟩ := h.sizes hfits hsvcs
  simp only [ServiceConfigHeader.fields, List.cons.injEq, and_true] at hlist
  obtain ⟨_, _, hservices, hinstances, _, _, hstrings⟩ := hlist
  rw [← hservices] at hs
  rw [← hinstances] at hi
  rw [← hstrings] at ht
  have hrest : (back.drop 28).length = (hdr'.serviceCount * 36).toNat +
      (hdr'.instanceCount * 4).toNat + hdr'.stringSize.toNat := by
    rw [length_drop, hlen, length_append, length_words, sections, length_append,
      length_append, hs, hi, ht]
    exact Nat.add_sub_cancel_left 28 _
  rw [← htext, loadText_eq fresh hrest, hwords, take_append_drop]

end ServiceMgr

end V2I.Mware
