import V2I.Mware.ServiceMgr.Runs

/-!
# V2I.Mware.ServiceMgr.Saved

What `save_config_file` leaves on disk. The services are written one by one, an entry here, the
offsets of its instances behind the room for all entries, its strings in a section that is kept
aside; `Written` says what stands where after each of them, and `saveSections_does` what stands
in the file at the end.
-/

namespace V2I.Mware.ServiceMgr

open ByteFile List Option

variable {sect more : Bytes} {offsets : List UInt32} {svc : ServiceImpl} {e : ServiceEntry}

/-! ## strings -/

/-- The room for a string. -/
def textSize (text : Bytes) : ℕ := text.length + 1

def instsSize (insts : List ServiceInfo) : ℕ := (insts.map fun inst => textSize inst.instName).sum

/-- The room for the strings of a service, without those of its instances. -/
def namesSize (svc : ServiceImpl) : ℕ :=
  textSize svc.pkgName + textSize svc.serviceName + textSize svc.executive +
    if svc.ipaddr.length > 0 then textSize svc.ipaddr else 0

def sectSize (svcs : List ServiceImpl) : ℕ :=
  (svcs.map fun svc => namesSize svc + instsSize svc.instList).sum

/-- The largest string section that does not overflow. -/
def maxSect : ℕ := 2 ^ 31 - 1024

/-- The number of instances of the services. -/
def instanceTotal (svcs : List ServiceImpl) : ℕ := (svcs.map fun svc => svc.instList.length).sum

variable (svcs : List ServiceImpl)

theorem instanceTotal_append_singleton (svc : ServiceImpl) :
    instanceTotal (svcs ++ [svc]) = instanceTotal svcs + svc.instList.length := by
  simp only [instanceTotal, map_append, sum_append, map_cons, map_nil,
    sum_cons, sum_nil, Nat.add_zero]

theorem instanceTotal_split (front : List ServiceImpl) (svc : ServiceImpl)
    (back : List ServiceImpl) : instanceTotal (front ++ svc :: back) =
      instanceTotal front + svc.instList.length + instanceTotal back := by
  simp only [instanceTotal, map_append, sum_append, map_cons, sum_cons, Nat.add_assoc]

theorem sectSize_append_singleton (svc : ServiceImpl) :
    sectSize (svcs ++ [svc]) = sectSize svcs + (namesSize svc + instsSize svc.instList) := by
  simp only [sectSize, map_append, sum_append, map_cons, map_nil, sum_cons, sum_nil, Nat.add_zero]

variable {insts : List ServiceInfo}

/-- A name that is not empty takes two bytes at least. -/
theorem two_mul_length_le_instsSize (hnamed : ∀ inst ∈ insts, inst.instName ≠ []) :
    2 * insts.length ≤ instsSize insts := by
  induction insts with
  | nil => exact Nat.le_refl 0
  | cons inst insts ih =>
      obtain ⟨hinst, hinsts⟩ := forall_mem_cons.mp hnamed
      have hpos : 0 < inst.instName.length := length_pos_of_ne_nil hinst
      have hrest := ih hinsts
      rw [instsSize] at hrest
      rw [instsSize, map_cons, sum_cons, length_cons, textSize]
      omega

variable {text : Bytes}

theorem cString_append_of_some (h : cString sect = some text) (more : Bytes) :
    cString (sect ++ more) = some text := by
  induction sect generalizing text with
  | nil => cases h
  | cons b bs ih =>
      rw [cString] at h
      rw [cons_append, cString]
      split
      · rename_i hb
        rwa [if_pos hb] at h
      · rename_i hb
        rw [if_neg hb] at h
        obtain ⟨rest, hrest, heq⟩ := map_eq_some_iff.mp h
        rw [ih hrest, ← heq]
        rfl

/-- A string that was found is found where more is added. -/
theorem stringAt_append {off : UInt32} (h : stringAt sect off = some text) (more : Bytes) :
    stringAt (sect ++ more) off = some text := by
  rw [stringAt] at h ⊢
  have hle : off.toNat ≤ sect.length := by
    by_contra hlt
    rw [drop_of_length_le (by omega)] at h
    cases h
  rw [drop_append_of_le_length hle]
  exact cString_append_of_some h more

theorem maxSect_lt : maxSect < 2 ^ 32 := by decide

theorem toNat_ofNat_of_lt {k : ℕ} (h : k < 2 ^ 32) : (UInt32.ofNat k).toNat = k := by
  rw [UInt32.toNat_ofNat', Nat.mod_eq_of_lt h]

/-- A string without a zero byte, put into a section with room for it, is found again. -/
theorem allocCopyString_does (sect : Bytes) (htext : 0 ∉ text)
    (hroom : sect.length + textSize text ≤ maxSect) :
    ∃ sect', allocCopyString sect text = some (sect', UInt32.ofNat sect.length) ∧
      sect' = sect ++ (text ++ [0]) ∧ sect'.length = sect.length + textSize text ∧
      stringAt sect' (UInt32.ofNat sect.length) = some text := by
  have hlt : sect.length < 2 ^ 32 := by
    have := maxSect_lt
    omega
  refine ⟨sect ++ (text ++ [0]), ?_, rfl, ?_, ?_⟩
  · rw [textSize, maxSect] at hroom
    rw [allocCopyString, if_neg (Nat.not_lt.mpr hroom), append_assoc]
  · simp only [length_append, length_singleton, textSize]
  · rw [stringAt, toNat_ofNat_of_lt hlt, drop_left]
    exact cString_append htext []

/-! ## entries -/

/-- An entry describes a service: its strings are where it says, and the offsets of the names of
its instances. -/
structure Describes (sect : Bytes) (offsets : List UInt32) (e : ServiceEntry)
    (svc : ServiceImpl) : Prop where
  pkgname : stringAt sect e.pkgname = some svc.pkgName
  servicename : stringAt sect e.servicename = some svc.serviceName
  executive : stringAt sect e.executive = some svc.executive
  ipaddr : if svc.ipaddr.length > 0 then
    e.ipaddr ≠ 0 ∧ stringAt sect e.ipaddr = some svc.ipaddr else e.ipaddr = 0
  port : e.port = svc.port
  version : e.version = svc.version
  flag : e.flag = svc.flags.toUInt32
  instcnt : e.instcnt = svc.instcnt
  insts : ∃ before mid after, offsets = before ++ mid ++ after ∧
    e.instoffset.toNat = 4 * before.length ∧
    Forall₂ (fun off inst => stringAt sect off = some inst.instName) mid svc.instList

theorem Describes.append (h : Describes sect offsets e svc) (more : Bytes)
    (moreOffsets : List UInt32) : Describes (sect ++ more) (offsets ++ moreOffsets) e svc where
  pkgname := stringAt_append h.pkgname more
  servicename := stringAt_append h.servicename more
  executive := stringAt_append h.executive more
  ipaddr := by
    have hip := h.ipaddr
    split
    · rename_i hlen
      rw [if_pos hlen] at hip
      exact ⟨hip.1, stringAt_append hip.2 more⟩
    · rename_i hlen
      rwa [if_neg hlen] at hip
  port := h.port
  version := h.version
  flag := h.flag
  instcnt := h.instcnt
  insts := by
    obtain ⟨before, mid, after, rfl, hoff, hnames⟩ := h.insts
    refine ⟨before, mid, after ++ moreOffsets, by simp only [append_assoc], hoff, ?_⟩
    exact hnames.imp fun _ _ hname => stringAt_append hname more

theorem makeEntry_eq {s₁ s₂ s₃ : Bytes} {pkgname servicename executive : UInt32}
    {r : Bytes × UInt32} (h₁ : allocCopyString sect svc.pkgName = some (s₁, pkgname))
    (h₂ : allocCopyString s₁ svc.serviceName = some (s₂, servicename))
    (h₃ : allocCopyString s₂ svc.executive = some (s₃, executive))
    (h₄ : (if svc.ipaddr.length > 0 then allocCopyString s₃ svc.ipaddr else some (s₃, 0)) = some r)
    (icnt : UInt32) :
    makeEntry svc sect icnt = some (r.1,
      ⟨pkgname, servicename, executive, r.2, svc.port, svc.version, svc.flags.toUInt32,
        svc.instcnt, if svc.instcnt < 1 then 0 else icnt * 4⟩) := by
  simp only [makeEntry, h₁, h₂, h₃, h₄, bind_eq_bind, bind_some]
  rfl

/-- The strings and the entry of a service. -/
theorem makeEntry_does (sect : Bytes) (ht : Texts svc) (hroom : sect.length + namesSize svc ≤ maxSect)
    (icnt : UInt32) :
    ∃ more e, makeEntry svc sect icnt = some (sect ++ more, e) ∧
      more.length = namesSize svc ∧
      stringAt (sect ++ more) e.pkgname = some svc.pkgName ∧
      stringAt (sect ++ more) e.servicename = some svc.serviceName ∧
      stringAt (sect ++ more) e.executive = some svc.executive ∧
      (if svc.ipaddr.length > 0 then
        e.ipaddr ≠ 0 ∧ stringAt (sect ++ more) e.ipaddr = some svc.ipaddr else e.ipaddr = 0) ∧
      e.port = svc.port ∧ e.version = svc.version ∧ e.flag = svc.flags.toUInt32 ∧
      e.instcnt = svc.instcnt ∧
      e.instoffset = if svc.instcnt < 1 then 0 else icnt * 4 := by
  rw [namesSize] at hroom
  -- the strings one behind the other
  obtain ⟨s₁, h₁, heq₁, hl₁, hs₁⟩ := allocCopyString_does sect ht.pkgName (by omega)
  obtain ⟨s₂, h₂, heq₂, hl₂, hs₂⟩ := allocCopyString_does s₁ ht.serviceName (by omega)
  obtain ⟨s₃, h₃, heq₃, hl₃, hs₃⟩ := allocCopyString_does s₂ ht.executive (by omega)
  have hname₁ : stringAt s₃ (UInt32.ofNat sect.length) = some svc.pkgName := by
    rw [heq₃, heq₂]
    exact stringAt_append (stringAt_append hs₁ _) _
  have hname₂ : stringAt s₃ (UInt32.ofNat s₁.length) = some svc.serviceName := by
    rw [heq₃]
    exact stringAt_append hs₂ _
  by_cases hip : svc.ipaddr.length > 0
  · rw [if_pos hip] at hroom
    obtain ⟨s₄, h₄, heq₄, hl₄, hs₄⟩ := allocCopyString_does s₃ ht.ipaddr (by omega)
    have hne : UInt32.ofNat s₃.length ≠ 0 := by
      intro heq
      have hzero := congrArg UInt32.toNat heq
      rw [toNat_ofNat_of_lt (by have := maxSect_lt; omega)] at hzero
      rw [textSize] at hl₃
      have hpos : s₃.length = 0 := hzero
      omega
    have hmore : s₄ = sect ++ (svc.pkgName ++ [0] ++ (svc.serviceName ++ [0]) ++
        (svc.executive ++ [0]) ++ (svc.ipaddr ++ [0])) := by
      rw [heq₄, heq₃, heq₂, heq₁]
      simp only [append_assoc]
    have hmake := makeEntry_eq h₁ h₂ h₃ (r := (s₄, UInt32.ofNat s₃.length))
      (by rw [if_pos hip, h₄]) icnt
    refine ⟨_, _, by rw [hmake, hmore], ?_, ?_, ?_, ?_, ?_, rfl, rfl, rfl, rfl, rfl⟩
    · simp only [length_append, length_singleton, namesSize, textSize, if_pos hip]
    · rw [← hmore, heq₄]
      exact stringAt_append hname₁ _
    · rw [← hmore, heq₄]
      exact stringAt_append hname₂ _
    · rw [← hmore, heq₄]
      exact stringAt_append hs₃ _
    · rw [if_pos hip, ← hmore]
      exact ⟨hne, hs₄⟩
  · have hmore : s₃ = sect ++ (svc.pkgName ++ [0] ++ (svc.serviceName ++ [0]) ++
        (svc.executive ++ [0])) := by
      rw [heq₃, heq₂, heq₁]
      simp only [append_assoc]
    have hmake := makeEntry_eq h₁ h₂ h₃ (r := (s₃, 0)) (by rw [if_neg hip]) icnt
    refine ⟨_, _, by rw [hmake, hmore], ?_, ?_, ?_, ?_, ?_, rfl, rfl, rfl, rfl, rfl⟩
    · simp only [length_append, length_singleton, namesSize, textSize, if_neg hip]
      omega
    · rwa [← hmore]
    · rwa [← hmore]
    · rwa [← hmore]
    · rw [if_neg hip]

/-! ## the loops -/

/-- The room for the entries that are not written yet, which is in the file once there are
offsets behind it. -/
def gap (left : ℕ) (offsets : List UInt32) : Bytes :=
  if offsets.isEmpty then [] else List.replicate (sizeofEntry * left) 0

theorem gap_zero (offsets : List UInt32) : gap 0 offsets = [] := by
  rw [gap]
  split <;> rfl

/-- What is in the file while the services are written: `front` is the header and the entries so
far, `left` are the entries to come. -/
def fileBytes (front : Bytes) (left : ℕ) (offsets : List UInt32) : Bytes :=
  front ++ gap left offsets ++ words offsets

/-- Another offset goes behind those that are there. -/
theorem writeAt_offset (front : Bytes) (left : ℕ) (offsets : List UInt32) (off : UInt32) :
    writeAt (fileBytes front left offsets)
        (front.length + sizeofEntry * left + 4 * offsets.length) (u32 off) =
      fileBytes front left (offsets ++ [off]) := by
  have hwords : words (offsets ++ [off]) = words offsets ++ u32 off := by
    rw [words_append, words_cons, words_nil, append_nil]
  have hgap : gap left (offsets ++ [off]) = List.replicate (sizeofEntry * left) 0 := by
    rw [gap, if_neg (by simp)]
  cases offsets with
  | nil =>
      have hfile : fileBytes front left [] = front := by
        simp only [fileBytes, gap, isEmpty_nil, if_true, append_nil, words_nil]
      rw [hfile, length_nil, Nat.mul_zero, Nat.add_zero,
        writeAt_beyond front _ (u32_ne_nil off), fileBytes, hgap, hwords]
      rfl
  | cons x xs =>
      have hold : gap left (x :: xs) = List.replicate (sizeofEntry * left) 0 := by
        rw [gap, if_neg (by simp)]
      have hlen : front.length + sizeofEntry * left + 4 * (x :: xs).length =
          (fileBytes front left (x :: xs)).length := by
        rw [fileBytes, hold, length_append, length_append, length_replicate, length_words]
      rw [hlen, writeAt_end, fileBytes, fileBytes, hgap, hwords, hold,
        append_assoc _ (words (x :: xs))]

/-- The next entry goes behind those that are there, into the room where that is in the file. -/
theorem writeAt_entry (front : Bytes) (left : ℕ) (offsets : List UInt32) {entry : Bytes}
    (hentry : entry.length = sizeofEntry) :
    writeAt (fileBytes front (left + 1) offsets) front.length entry =
      fileBytes (front ++ entry) left offsets := by
  cases offsets with
  | nil =>
      simp only [fileBytes, gap, isEmpty_nil, if_true, append_nil, words_nil]
      exact writeAt_end front entry
  | cons x xs =>
      have hroom : gap (left + 1) (x :: xs) =
          List.replicate sizeofEntry 0 ++ gap left (x :: xs) := by
        rw [gap, gap, isEmpty_cons, if_neg Bool.false_ne_true, if_neg Bool.false_ne_true,
          replicate_append_replicate, Nat.mul_succ, Nat.add_comm]
      rw [fileBytes, hroom, ← append_assoc, append_assoc _ (gap left (x :: xs)),
        writeAt_middle _ _ _ (by rw [hentry, length_replicate]), fileBytes,
        append_assoc _ (gap left (x :: xs))]

/-- The names of the instances go to the strings, their offsets behind the others. -/
theorem writeInstanceInfo_does {offset : UInt32} {front : Bytes} {left : ℕ}
    (htext : ∀ inst ∈ insts, 0 ∉ inst.instName) {file : AbsFile} {incnt : ℕ}
    (hfile : file.data = fileBytes front left offsets)
    (hpos : offset.toNat + incnt * 4 = front.length + sizeofEntry * left + 4 * offsets.length)
    (hroom : sect.length + instsSize insts ≤ maxSect) :
    ∃ file' more mid,
      writeInstanceInfo offset file sect incnt insts =
        some (file', sect ++ more, incnt + insts.length) ∧
      file'.data = fileBytes front left (offsets ++ mid) ∧ more.length = instsSize insts ∧
      Forall₂ (fun off inst => stringAt (sect ++ more) off = some inst.instName) mid
        insts := by
  induction insts generalizing file sect offsets incnt with
  | nil =>
      exact ⟨file, [], [], by rw [append_nil]; rfl, by rw [append_nil]; exact hfile, rfl,
        .nil⟩
  | cons inst insts ih =>
      obtain ⟨hinst, hinsts⟩ := forall_mem_cons.mp htext
      rw [instsSize, map_cons, sum_cons] at hroom
      obtain ⟨s₁, halloc, heq₁, hl₁, hs₁⟩ := allocCopyString_does sect hinst (by omega)
      have hdata : ((file.seekSet (offset.toNat + incnt * 4)).write
          (u32 (UInt32.ofNat sect.length))).data =
          fileBytes front left (offsets ++ [UInt32.ofNat sect.length]) := by
        rw [← writeAt_offset, ← hfile, ← hpos]
        rfl
      have hnext : offset.toNat + (incnt + 1) * 4 = front.length + sizeofEntry * left +
          4 * (offsets ++ [UInt32.ofNat sect.length]).length := by
        rw [length_append, length_singleton]
        omega
      have hleft : s₁.length + instsSize insts ≤ maxSect := by
        rw [hl₁, instsSize]
        omega
      obtain ⟨file', more, mid, hwrite, hdata', hlen, hnames⟩ := ih hinsts hdata hnext hleft
      have hmore : s₁ ++ more = sect ++ (inst.instName ++ [0] ++ more) := by
        rw [heq₁, append_assoc]
      refine ⟨file', inst.instName ++ [0] ++ more, UInt32.ofNat sect.length :: mid, ?_, ?_, ?_, ?_⟩
      · rw [writeInstanceInfo, halloc]
        simp only [hwrite, hmore, length_cons, Nat.add_assoc, Nat.add_comm 1]
      · rw [hdata', append_assoc]
        rfl
      · rw [instsSize, map_cons, sum_cons, length_append, hlen, textSize,
          length_append, length_singleton]
        rfl
      · rw [← hmore]
        exact .cons (stringAt_append hs₁ more) hnames

/-- The bytes of the entries. -/
def entryBytes (entries : List ServiceEntry) : Bytes :=
  words (entries.flatMap ServiceEntry.fields)

variable (entries : List ServiceEntry)

theorem entryBytes_append_singleton (e : ServiceEntry) :
    entryBytes (entries ++ [e]) = entryBytes entries ++ words e.fields := by
  simp only [entryBytes, flatMap_append, flatMap_cons, flatMap_nil, append_nil, words_append]

theorem length_entryBytes : (entryBytes entries).length = sizeofEntry * entries.length := by
  induction entries with
  | nil => rfl
  | cons e es ih =>
      have hcons : entryBytes (e :: es) = words e.fields ++ entryBytes es := by
        simp only [entryBytes, flatMap_cons, words_append]
      rw [hcons, length_append, ih, length_words, length_cons, Nat.mul_succ, Nat.add_comm]
      rfl

/-- The services `done` are written: `entries` and `offsets` stand where they should, and
describe them. -/
structure Written (header : Bytes) (n : ℕ) (w : Writing) (done : List ServiceImpl)
    (entries : List ServiceEntry) (offsets : List UInt32) : Prop where
  data : w.file.data = fileBytes (header ++ entryBytes entries) (n - entries.length) offsets
  hcnt : w.hcnt = entries.length
  icnt : w.instanceCount = UInt32.ofNat offsets.length
  total : offsets.length = instanceTotal done
  room : w.sect.length = sectSize done
  describes : Forall₂ (Describes w.sect offsets) entries done

theorem two_mul_instanceTotal_le_sectSize {svcs : List ServiceImpl}
    (hsvcs : ∀ svc ∈ svcs, Writable svc) : 2 * instanceTotal svcs ≤ sectSize svcs := by
  induction svcs with
  | nil => exact Nat.le_refl 0
  | cons svc svcs ih =>
      obtain ⟨hsvc, hsvcs⟩ := forall_mem_cons.mp hsvcs
      have hinsts := two_mul_length_le_instsSize hsvc.named
      have hrest := ih hsvcs
      rw [instanceTotal, sectSize] at hrest
      rw [instanceTotal, sectSize, map_cons, map_cons, sum_cons, sum_cons]
      omega

theorem ofNat_lt_one_iff {k : ℕ} (h : k < 2 ^ 32) : UInt32.ofNat k < 1 ↔ k = 0 := by
  rw [UInt32.lt_iff_toNat_lt, toNat_ofNat_of_lt h, show (1 : UInt32).toNat = 1 from rfl]
  omega

variable {entries : List ServiceEntry} {done : List ServiceImpl}

theorem forall₂_describes_append (h : Forall₂ (Describes sect offsets) entries done)
    (more : Bytes) (moreOffsets : List UInt32) :
    Forall₂ (Describes (sect ++ more) (offsets ++ moreOffsets)) entries done :=
  h.imp fun _ _ hd => hd.append more moreOffsets

theorem writeServiceInfo_does {header : Bytes} {n : ℕ} {w : Writing}
    (hheader : header.length = sizeofHeader) (hw : Written header n w done entries offsets)
    (hlt : entries.length < n) (hsvc : Writable svc)
    (hroom : sectSize done + (namesSize svc + instsSize svc.instList) ≤ maxSect)
    (hstart : svc.instList ≠ [] → sizeofHeader + sizeofEntry * n + 4 * instanceTotal done < 2 ^ 32)
    : ∃ w' e mid,
      writeServiceInfo (UInt32.ofNat (sizeofHeader + sizeofEntry * n)) w svc = some (w', 0) ∧
      Written header n w' (done ++ [svc]) (entries ++ [e]) (offsets ++ mid) := by
  obtain ⟨more, e, hmake, hmore, hpkg, hname, hexec, hip, hport, hversion, hflag, hinstcnt,
    hinstoffset⟩ := makeEntry_does w.sect hsvc.texts (by rw [hw.room]; omega)
      w.instanceCount
  have hlen : (header ++ entryBytes entries).length =
      sizeofHeader + entries.length * sizeofEntry := by
    rw [length_append, hheader, length_entryBytes, Nat.mul_comm]
  have hleft : n - entries.length = n - (entries.length + 1) + 1 := by omega
  -- the entry
  obtain ⟨file, hfile_eq⟩ : ∃ file, file =
      (w.file.seekSet (sizeofHeader + w.hcnt * sizeofEntry)).write (words e.fields) := ⟨_, rfl⟩
  have hdata : file.data = fileBytes (header ++ entryBytes (entries ++ [e]))
      (n - (entries.length + 1)) offsets := by
    have hentry : (words e.fields).length = sizeofEntry := by rw [length_words]; rfl
    rw [hfile_eq, entryBytes_append_singleton, ← append_assoc,
      ← writeAt_entry _ _ _ hentry, ← hleft, ← hw.data, hlen, ← hw.hcnt]
    rfl
  have hlen' : (entries ++ [e]).length = entries.length + 1 := by
    rw [length_append, length_singleton]
  have hsect := sectSize_append_singleton done svc
  have htotal := instanceTotal_append_singleton done svc
  have hinsts := two_mul_length_le_instsSize hsvc.named
  have hmax := maxSect_lt
  have hcnt : e.instcnt < 1 ↔ svc.instList.length = 0 := by
    rw [hinstcnt, hsvc.instcnt]
    exact ofNat_lt_one_iff (by omega)
  by_cases hnone : svc.instList.length = 0
  · have hnil : svc.instList = [] := length_eq_zero_iff.mp hnone
    refine ⟨⟨file, w.sect ++ more, w.instanceCount, w.hcnt + 1⟩, e, [], ?_, ?_⟩
    · simp only [writeServiceInfo, hmake, bind_eq_bind, bind_some,
        if_pos (hcnt.mpr hnone), ← hfile_eq]
      rfl
    · refine ⟨by rw [append_nil, hlen']; exact hdata, by rw [hlen', ← hw.hcnt],
        by rw [append_nil]; exact hw.icnt,
        by rw [append_nil, hw.total, htotal, hnone]; rfl, ?_, ?_⟩
      · rw [length_append, hw.room, hmore, hsect, hnil]
        rfl
      · refine rel_append (forall₂_describes_append hw.describes more []) (.cons ?_ .nil)
        refine ⟨hpkg, hname, hexec, hip, hport, hversion, hflag, hinstcnt, [], [], offsets ++ [],
          rfl, ?_, by rw [hnil]; exact .nil⟩
        rw [hinstoffset, if_pos (hinstcnt ▸ hcnt.mpr hnone)]
        rfl
  · have hfile := hstart fun hnil => hnone (by rw [hnil]; rfl)
    rw [← hw.total] at hfile
    have hoffset : e.instoffset.toNat = 4 * offsets.length := by
      rw [hinstoffset, if_neg fun h => hnone (hcnt.mp (hinstcnt ▸ h)), hw.icnt,
        UInt32.toNat_mul, toNat_ofNat_of_lt (by omega), show (4 : UInt32).toNat = 4 from rfl]
      omega
    have hpos : (UInt32.ofNat (sizeofHeader + sizeofEntry * n) + e.instoffset).toNat + 0 * 4 =
        (header ++ entryBytes (entries ++ [e])).length +
          sizeofEntry * (n - (entries.length + 1)) + 4 * offsets.length := by
      rw [UInt32.toNat_add, toNat_ofNat_of_lt (by omega), hoffset, length_append, hheader,
        length_entryBytes, hlen']
      have hmul : sizeofEntry * n =
          sizeofEntry * (entries.length + 1) + sizeofEntry * (n - (entries.length + 1)) := by
        rw [← Nat.mul_add]
        congr 1
        omega
      omega
    have hleft : (w.sect ++ more).length + instsSize svc.instList ≤ maxSect := by
      rw [length_append, hmore, hw.room]
      omega
    obtain ⟨file', more', mid, hwrite, hdata', hmore', hnames⟩ :=
      writeInstanceInfo_does hsvc.texts.insts hdata hpos hleft
    have hmid : mid.length = svc.instList.length := hnames.length_eq
    refine ⟨⟨file', w.sect ++ (more ++ more'), w.instanceCount + UInt32.ofNat svc.instList.length,
      w.hcnt + 1⟩, e, mid, ?_, ?_⟩
    · have hcount : ¬ UInt32.ofNat svc.instList.length ≠ svc.instcnt := by
        rw [hsvc.instcnt]
        exact fun h => h rfl
      simp only [writeServiceInfo, hmake, bind_eq_bind, bind_some,
        if_neg fun h => hnone (hcnt.mp h), ← hfile_eq, hwrite, if_neg hcount, Nat.zero_add,
        append_assoc]
      rfl
    · refine ⟨by rw [hlen']; exact hdata', by rw [hlen', ← hw.hcnt], ?_, ?_, ?_, ?_⟩
      · rw [hw.icnt, length_append, hmid]
        exact (UInt32.ofNat_add _ _).symm
      · rw [length_append, hw.total, hmid, htotal]
      · rw [length_append, length_append, hw.room, hmore, hmore', hsect]
      · rw [← append_assoc]
        refine rel_append ?_ (.cons ?_ .nil)
        · rw [append_assoc]
          exact forall₂_describes_append hw.describes (more ++ more') mid
        · refine ⟨stringAt_append hpkg more', stringAt_append hname more',
            stringAt_append hexec more', ?_, hport, hversion, hflag, hinstcnt, offsets, mid, [],
            by rw [append_nil], hoffset, hnames⟩
          split
          · rename_i hlen
            rw [if_pos hlen] at hip
            exact ⟨hip.1, stringAt_append hip.2 more'⟩
          · rename_i hlen
            rwa [if_neg hlen] at hip

theorem writeServicesInfo_does {header : Bytes} {n : ℕ} (hheader : header.length = sizeofHeader)
    {svcs : List ServiceImpl} {w : Writing} (hw : Written header n w done entries offsets)
    (hn : (done ++ svcs).length = n) (hsvcs : ∀ svc ∈ svcs, Writable svc)
    (hroom : sectSize (done ++ svcs) ≤ maxSect)
    (hstart : ∀ front svc back, done ++ svcs = front ++ svc :: back → svc.instList ≠ [] →
      sizeofHeader + sizeofEntry * n + 4 * instanceTotal front < 2 ^ 32) :
    ∃ w' entries' offsets',
      writeServicesInfo (UInt32.ofNat (sizeofHeader + sizeofEntry * n)) w svcs = some (w', 0) ∧
      Written header n w' (done ++ svcs) entries' offsets' := by
  induction svcs generalizing w done entries offsets with
  | nil => exact ⟨w, entries, offsets, rfl, by rw [append_nil]; exact hw⟩
  | cons svc svcs ih =>
      obtain ⟨hsvc, hsvcs⟩ := forall_mem_cons.mp hsvcs
      have hlen : entries.length = done.length := hw.describes.length_eq
      have hsect : sectSize (done ++ svc :: svcs) =
          sectSize done + (namesSize svc + instsSize svc.instList) + sectSize svcs := by
        simp only [sectSize, map_append, sum_append, map_cons, sum_cons]
        omega
      have hlt : entries.length < n := by
        rw [hlen, ← hn, length_append, length_cons]
        omega
      obtain ⟨w₁, e, mid, hwrite, hw₁⟩ := writeServiceInfo_does hheader hw hlt hsvc (by omega)
        (hstart done svc svcs rfl)
      rw [append_cons] at hn hroom hstart ⊢
      obtain ⟨w', entries', offsets', hrest, hw'⟩ := ih hw₁ hn hsvcs hroom hstart
      refine ⟨w', entries', offsets', ?_, hw'⟩
      rw [writeServicesInfo, hwrite]
      exact hrest

/-! ## the file -/

theorem length_serviceMagic : serviceMagic.length = 24 := by decide

variable {hdr : ServiceConfigHeader}

theorem length_header (h : hdr.magic.length = 24) : hdr.bytes.length = sizeofHeader := by
  rw [ServiceConfigHeader.bytes, length_append, length_append, h, hdr.digest.2, length_words]
  rfl

/-- The header is written over the one that stands there. -/
theorem writeAt_header {old new : ServiceConfigHeader} (hold : old.magic.length = 24)
    (hnew : new.magic.length = 24) (back : Bytes) :
    writeAt (old.bytes ++ back) 0 new.bytes = new.bytes ++ back :=
  writeAt_middle [] old.bytes back (by rw [length_header hold, length_header hnew])

/-- The size of the file. -/
def fileSize (m : ServiceMgr) : ℕ :=
  sizeofHeader + sizeofEntry * m.serviceInfoList.length + 4 * instanceTotal m.serviceInfoList +
    sectSize m.serviceInfoList

/-- The sizes are those of the file, as numbers of 32 bits: the one of the strings, which is an
`int`, that of the entries, and where the offsets of a service start. The one of the file
itself may lose its high bits, if it does not look too short then. -/
structure Fits (m : ServiceMgr) : Prop where
  sect : sectSize m.serviceInfoList ≤ maxSect
  entries : sizeofEntry * m.serviceInfoList.length < 2 ^ 32
  insts : ∀ front svc back, m.serviceInfoList = front ++ svc :: back → svc.instList ≠ [] →
    sizeofHeader + sizeofEntry * m.serviceInfoList.length + 4 * instanceTotal front < 2 ^ 32
  size : 56 ≤ fileSize m % 2 ^ 32

/-- A header, and what stands behind it in the file. -/
structure Stored (m : ServiceMgr) (hdr : ServiceConfigHeader) (entries : List ServiceEntry)
    (offsets : List UInt32) (sect : Bytes) : Prop where
  magic : hdr.magic.length = 24
  serviceCount : hdr.serviceCount = UInt32.ofNat entries.length
  instanceCount : hdr.instanceCount = UInt32.ofNat offsets.length
  stringSize : hdr.stringSize = UInt32.ofNat sect.length
  total : offsets.length = instanceTotal m.serviceInfoList
  room : sect.length = sectSize m.serviceInfoList
  describes : Forall₂ (Describes sect offsets) entries m.serviceInfoList

theorem Stored.size {m : ServiceMgr} (h : Stored m hdr entries offsets sect) :
    sizeofHeader + (entryBytes entries ++ words offsets ++ sect).length = fileSize m := by
  rw [length_append, length_append, length_entryBytes, length_words, h.total, h.room,
    h.describes.length_eq, fileSize]
  omega

/-- The parts of the file, before the header is written for the last time. -/
theorem saveSections_does {m : ServiceMgr} (hcnt : m.serviceCnt = m.serviceInfoList.length)
    (hsvcs : ∀ svc ∈ m.serviceInfoList, Writable svc) (hfits : Fits m)
    (hne : m.serviceInfoList ≠ []) :
    ∃ file hdr entries offsets sect, m.saveSections = some ((file, hdr), 0) ∧
      file.data = hdr.bytes ++ (entryBytes entries ++ words offsets ++ sect) ∧
      Stored m hdr entries offsets sect := by
  have hlt : m.serviceInfoList.length < 2 ^ 32 :=
    Nat.lt_of_le_of_lt (Nat.le_mul_of_pos_left _ (by decide)) hfits.entries
  have hcount : m.newHeader.serviceCount = UInt32.ofNat m.serviceInfoList.length := by
    have hmod : (m.serviceCnt % 2 ^ 32).toNat = m.serviceInfoList.length := by omega
    rw [newHeader, hmod]
  have hmagic : m.newHeader.magic.length = 24 := length_serviceMagic
  have hstart : UInt32.ofNat (sizeofHeader + m.newHeader.serviceCount.toNat * sizeofEntry) =
      UInt32.ofNat (sizeofHeader + sizeofEntry * m.serviceInfoList.length) := by
    rw [hcount, toNat_ofNat_of_lt hlt, Nat.mul_comm]
  -- the header, and the services one by one
  have hinit : Written m.newHeader.bytes m.serviceInfoList.length
      ⟨(AbsFile.seekSet ⟨[], 0⟩ 0).write m.newHeader.bytes, [], 0, 0⟩ [] [] [] := by
    refine ⟨?_, rfl, rfl, rfl, rfl, .nil⟩
    have hwrite : ((AbsFile.seekSet ⟨[], 0⟩ 0).write m.newHeader.bytes).data =
        m.newHeader.bytes := writeAt_end [] m.newHeader.bytes
    rw [hwrite, fileBytes, gap, isEmpty_nil, if_pos rfl]
    simp only [entryBytes, flatMap_nil, words_nil, append_nil]
  obtain ⟨w, entries, offsets, hwrite, hw⟩ :=
    writeServicesInfo_does (length_header hmagic) hinit
      (show ([] ++ m.serviceInfoList).length = m.serviceInfoList.length from rfl) hsvcs hfits.sect
      hfits.insts
  rw [nil_append] at hw
  have hentries : entries.length = m.serviceInfoList.length := hw.describes.length_eq
  have hdata : w.file.data = m.newHeader.bytes ++ (entryBytes entries ++ words offsets) := by
    rw [hw.data, hentries, Nat.sub_self, fileBytes, gap_zero, append_nil, append_assoc]
  have hpos : w.sect.length ≠ 0 := by
    obtain ⟨svc, svcs, hlist⟩ := exists_cons_of_ne_nil hne
    rw [hw.room, hlist, sectSize, map_cons, sum_cons, namesSize, textSize]
    omega
  -- the strings, and the header again
  obtain ⟨hdr, hhdr⟩ : ∃ hdr, hdr = { m.newHeader with
      instanceCount := w.instanceCount
      instanceStart :=
        UInt32.ofNat (sizeofHeader + sizeofEntry * m.serviceInfoList.length) } := ⟨_, rfl⟩
  have hhdrmagic : hdr.magic.length = 24 := by rw [hhdr]; exact hmagic
  have hstrings : writeServiceStringSection w.file w.sect hdr =
      ((((w.file.seekEnd.write w.sect).seekSet 0).write
        { hdr with
          startOfStringSection := UInt32.ofNat w.file.data.length
          stringSize := UInt32.ofNat w.sect.length : ServiceConfigHeader }.bytes),
        { hdr with
          startOfStringSection := UInt32.ofNat w.file.data.length
          stringSize := UInt32.ofNat w.sect.length }) := if_pos hpos
  refine ⟨_, _, entries, offsets, w.sect, Eq.trans ?_ (congrArg (fun r => some (r, 0)) hstrings),
    ?_, ?_⟩
  · simp only [saveSections, hstart, hwrite, bind_eq_bind, bind_some, hhdr]
    rfl
  · refine (congrArg (fun data => writeAt data 0 _) (writeAt_end w.file.data w.sect)).trans ?_
    rw [hdata, append_assoc m.newHeader.bytes]
    refine writeAt_header hmagic ?_ _
    exact hhdrmagic
  · refine ⟨hhdrmagic, ?_, by rw [hhdr]; exact hw.icnt, rfl, hw.total, hw.room, hw.describes⟩
    rw [hhdr, hentries]
    exact hcount

end V2I.Mware.ServiceMgr
