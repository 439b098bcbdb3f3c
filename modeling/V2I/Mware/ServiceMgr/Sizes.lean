import V2I.Mware.ServiceMgr.Loaded

/-!
# V2I.Mware.ServiceMgr.Sizes

What is lost where the sizes do not fit. The strings are an `int` long, so writing fails where
they are longer; the sizes of the tables lose their high bits, and then the reader digests a text
of another length than the writer did.
-/

namespace V2I.Mware.ServiceMgr

open ByteFile List Option

variable {m : ServiceMgr} {sect : Bytes} {svc : ServiceImpl}

/-! ## what a write needs -/

variable {sect' : Bytes}

theorem allocCopyString_sizes {text : Bytes} {pos : UInt32}
    (h : allocCopyString sect text = some (sect', pos)) :
    sect'.length = sect.length + textSize text ∧ sect'.length ≤ maxSect := by
  rw [allocCopyString] at h
  split at h
  · cases h
  · rename_i hroom
    obtain ⟨rfl, -⟩ := Prod.mk.inj (some.inj h)
    rw [length_append, length_append, length_singleton, textSize, maxSect]
    omega

/-- The strings of a service are put into the section, or nothing is. -/
theorem makeEntry_sizes {icnt : UInt32} {e : ServiceEntry}
    (h : makeEntry svc sect icnt = some (sect', e)) :
    sect'.length = sect.length + namesSize svc ∧ sect'.length ≤ maxSect ∧
      e.instcnt = svc.instcnt ∧ e.instoffset = if svc.instcnt < 1 then 0 else icnt * 4 := by
  rw [makeEntry] at h
  simp only [bind_eq_bind, bind_eq_some_iff] at h
  obtain ⟨⟨s₁, p₁⟩, h₁, ⟨s₂, p₂⟩, h₂, ⟨s₃, p₃⟩, h₃, ⟨s₄, p₄⟩, h₄, h⟩ := h
  obtain ⟨rfl, rfl⟩ := Prod.mk.inj (some.inj h)
  have hl₁ : s₁.length = sect.length + textSize svc.pkgName := (allocCopyString_sizes h₁).1
  have hl₂ : s₂.length = s₁.length + textSize svc.serviceName := (allocCopyString_sizes h₂).1
  have hl₃ : s₃.length = s₂.length + textSize svc.executive := (allocCopyString_sizes h₃).1
  refine ⟨?_, ?_, rfl, rfl⟩
  · show s₄.length = _
    rw [namesSize]
    split at h₄
    · rename_i hip
      have hl₄ : s₄.length = s₃.length + textSize svc.ipaddr := (allocCopyString_sizes h₄).1
      rw [if_pos hip]
      omega
    · rename_i hip
      have hl₄ : s₃ = s₄ := congrArg Prod.fst (some.inj h₄)
      rw [if_neg hip, ← hl₄]
      omega
  · split at h₄
    · exact (allocCopyString_sizes h₄).2
    · obtain ⟨rfl, -⟩ := Prod.mk.inj (some.inj h₄)
      exact (allocCopyString_sizes h₃).2

/-- The offsets end where the last is written, unless the file ends behind it. -/
theorem writeInstanceInfo_sizes {offset : UInt32} {insts : List ServiceInfo} {file file' : AbsFile}
    {incnt incnt' : ℕ}
    (h : writeInstanceInfo offset file sect incnt insts = some (file', sect', incnt')) :
    incnt' = incnt + insts.length ∧ sect'.length = sect.length + instsSize insts ∧
      (sect.length ≤ maxSect → sect'.length ≤ maxSect) ∧
      file.data.length ≤ file'.data.length ∧
      file'.data.length ≤ max file.data.length (offset.toNat + (incnt + insts.length) * 4) := by
  induction insts generalizing file sect incnt with
  | nil =>
      obtain ⟨rfl, hrest⟩ := Prod.mk.inj (some.inj h)
      obtain ⟨rfl, rfl⟩ := Prod.mk.inj hrest
      exact ⟨rfl, rfl, id, Nat.le_refl _, Nat.le_max_left _ _⟩
  | cons inst insts ih =>
      rw [writeInstanceInfo] at h
      split at h
      · cases h
      · rename_i s₁ delta halloc
        obtain ⟨hl₁, hm₁⟩ := allocCopyString_sizes halloc
        have hdata : ((file.seekSet (offset.toNat + incnt * 4)).write (u32 delta)).data.length =
            max file.data.length (offset.toNat + incnt * 4 + 4) :=
          length_writeAt _ _ (u32_ne_nil delta)
        obtain ⟨hcnt, hlen, hmax, hlow, hhigh⟩ := ih h
        rw [hdata] at hlow hhigh
        rw [length_cons, instsSize, map_cons, sum_cons]
        rw [instsSize] at hlen
        exact ⟨by omega, by omega, fun _ => hmax hm₁, by omega, by omega⟩

/-! ## the services -/

/-- The sizes while the services `done` of `n` are written. Where the offsets of one of them
start lies behind 2^32, they went to another place, and the file is too short. -/
structure Sized (n : ℕ) (w : Writing) (done : List ServiceImpl) : Prop where
  hcnt : w.hcnt = done.length
  icnt : w.instanceCount = UInt32.ofNat (instanceTotal done)
  room : w.sect.length = sectSize done
  sect : w.sect.length ≤ maxSect
  low : sizeofHeader + sizeofEntry * done.length ≤ w.file.data.length
  high : w.file.data.length ≤ sizeofHeader + sizeofEntry * n + 4 * instanceTotal done
  short : ∀ front svc back, done = front ++ svc :: back → svc.instList ≠ [] →
    2 ^ 32 ≤ sizeofHeader + sizeofEntry * n + 4 * instanceTotal front →
    w.file.data.length < sizeofHeader + sizeofEntry * n + 4 * instanceTotal done

variable {w : Writing} {done : List ServiceImpl}

theorem writeServiceInfo_sizes {n : ℕ} {w' : Writing} (hw : Sized n w done) (hlt : done.length < n)
    (hsvc : Writable svc) (hcount : svc.instList.length < 2 ^ 32)
    (h : writeServiceInfo (UInt32.ofNat (sizeofHeader + sizeofEntry * n)) w svc = some (w', 0)) :
    Sized n w' (done ++ [svc]) := by
  have hsect := sectSize_append_singleton done svc
  have htotal := instanceTotal_append_singleton done svc
  have hinsts := two_mul_length_le_instsSize hsvc.named
  have hmax := maxSect_lt
  have hmul : sizeofEntry * (done.length + 1) ≤ sizeofEntry * n := Nat.mul_le_mul_left _ hlt
  have hlen : (done ++ [svc]).length = done.length + 1 := by
    rw [length_append, length_singleton]
  have hlow := hw.low
  have hhigh := hw.high
  simp only [writeServiceInfo, bind_eq_bind, bind_eq_some_iff] at h
  obtain ⟨⟨s₁, e⟩, hmake, h⟩ := h
  obtain ⟨hl₁, hm₁, hinstcnt, hinstoffset⟩ := makeEntry_sizes hmake
  obtain ⟨file, hfile⟩ : ∃ file, file =
      (w.file.seekSet (sizeofHeader + w.hcnt * sizeofEntry)).write (words e.fields) := ⟨_, rfl⟩
  have hdata : file.data.length =
      max w.file.data.length (sizeofHeader + sizeofEntry * (done.length + 1)) := by
    have hpos : sizeofHeader + sizeofEntry * (done.length + 1) =
        sizeofHeader + w.hcnt * sizeofEntry + 36 := by
      rw [hw.hcnt, sizeofEntry]
      omega
    rw [hfile, hpos]
    exact length_writeAt _ _ (cons_ne_nil _ _)
  dsimp only at h hl₁ hm₁
  rw [← hfile] at h
  -- a split of the services ends before the last, or with it
  have hsplit : ∀ {front back : List ServiceImpl} {s : ServiceImpl},
      done ++ [svc] = front ++ s :: back → (front = done ∧ s = svc) ∨
        ∃ back', done = front ++ s :: back' := by
    intro front back s heq
    rcases eq_nil_or_concat back with rfl | ⟨back', last, rfl⟩
    · exact .inl ⟨(append_inj' heq rfl).1.symm,
        (List.cons.inj (append_inj' heq rfl).2).1.symm⟩
    · rw [concat_eq_append, ← cons_append, ← append_assoc] at heq
      exact .inr ⟨back', (append_inj' heq rfl).1⟩
  have hnone : e.instcnt < 1 ↔ svc.instList.length = 0 := by
    rw [hinstcnt, hsvc.instcnt]
    exact ofNat_lt_one_iff hcount
  split at h
  · rename_i hcnt
    obtain ⟨rfl, -⟩ := Prod.mk.inj (some.inj h)
    have hnil : svc.instList = [] := length_eq_zero_iff.mp (hnone.mp hcnt)
    have hzero : instsSize svc.instList = 0 := by rw [hnil]; rfl
    rw [hnil, length_nil, Nat.add_zero] at htotal
    refine ⟨by rw [hlen]; exact congrArg (· + 1) hw.hcnt, by rw [htotal]; exact hw.icnt, ?_, hm₁,
      ?_, ?_, ?_⟩
    · show s₁.length = _
      rw [hl₁, hw.room, hsect, hzero, Nat.add_zero]
    · show _ ≤ file.data.length
      rw [hlen, hdata]
      exact Nat.le_max_right _ _
    · show file.data.length ≤ _
      rw [htotal]
      omega
    · intro front s back heq hs hlarge
      show file.data.length < _
      obtain ⟨-, rfl⟩ | ⟨back', hback⟩ := hsplit heq
      · exact absurd hnil hs
      · have hshort := hw.short front s back' hback hs hlarge
        have hpos := length_pos_of_ne_nil hs
        have hdone := instanceTotal_split front s back'
        rw [← hback] at hdone
        rw [htotal]
        omega
  · rename_i hcnt
    obtain ⟨⟨file', s₂, inscnt⟩, hwrite, h⟩ := bind_eq_some_iff.mp h
    obtain ⟨hins, hl₂, hm₂, hlow₂, hhigh₂⟩ := writeInstanceInfo_sizes hwrite
    dsimp only at h
    split at h
    · cases h
    · obtain ⟨rfl, -⟩ := Prod.mk.inj (some.inj h)
      have hone : 0 < svc.instList.length := by
        have hzero := hnone.not.mp hcnt
        omega
      -- the offsets start where they should, less a multiple of 2^32
      have hstart : (UInt32.ofNat (sizeofHeader + sizeofEntry * n) + e.instoffset).toNat =
          (sizeofHeader + sizeofEntry * n + 4 * instanceTotal done) % 2 ^ 32 := by
        rw [hinstoffset, if_neg (by rwa [← hinstcnt]), hw.icnt, UInt32.toNat_add, UInt32.toNat_mul,
          UInt32.toNat_ofNat', UInt32.toNat_ofNat', show (4 : UInt32).toNat = 4 from rfl]
        omega
      rw [Nat.zero_add] at hins hhigh₂
      rw [hdata] at hlow₂ hhigh₂
      rw [hstart] at hhigh₂
      refine ⟨by rw [hlen]; exact congrArg (· + 1) hw.hcnt, ?_, ?_, hm₂ hm₁, ?_, ?_, ?_⟩
      · show w.instanceCount + UInt32.ofNat inscnt = _
        rw [hw.icnt, hins, htotal]
        exact (UInt32.ofNat_add _ _).symm
      · show s₂.length = _
        rw [hl₂, hl₁, hw.room, hsect, Nat.add_assoc]
      · show _ ≤ file'.data.length
        rw [hlen]
        omega
      · show file'.data.length ≤ _
        rw [htotal]
        omega
      · intro front s back heq hs hlarge
        show file'.data.length < _
        rw [htotal]
        have hfront : instanceTotal front ≤ instanceTotal done := by
          obtain ⟨rfl, -⟩ | ⟨back', rfl⟩ := hsplit heq
          · exact Nat.le_refl _
          · rw [instanceTotal_split]
            omega
        omega

theorem writeServicesInfo_sizes {n : ℕ} {svcs : List ServiceImpl} {w' : Writing}
    (hw : Sized n w done) (hn : (done ++ svcs).length = n) (hsvcs : ∀ svc ∈ svcs, Writable svc)
    (hcounts : ∀ svc ∈ svcs, svc.instList.length < 2 ^ 32)
    (h : writeServicesInfo (UInt32.ofNat (sizeofHeader + sizeofEntry * n)) w svcs = some (w', 0)) :
    Sized n w' (done ++ svcs) := by
  induction svcs generalizing w done with
  | nil =>
      obtain ⟨rfl, -⟩ := Prod.mk.inj (some.inj h)
      rwa [append_nil]
  | cons svc svcs ih =>
      obtain ⟨hsvc, hsvcs⟩ := forall_mem_cons.mp hsvcs
      obtain ⟨hcount, hcounts⟩ := forall_mem_cons.mp hcounts
      rw [writeServicesInfo] at h
      split at h
      · cases h
      · rename_i w₁ ret hwrite
        split at h
        · rename_i hret
          exact absurd (congrArg Prod.snd (some.inj h)) hret
        · rename_i hret
          rw [not_not.mp hret] at hwrite
          have hlt : done.length < n := by
            rw [← hn, length_append, length_cons]
            omega
          rw [append_cons] at hn ⊢
          exact ih (writeServiceInfo_sizes hw hlt hsvc hcount hwrite) hn hsvcs hcounts h

/-! ## the instances that are loaded -/

/-- How many instances the services can have, where one of them has at most `k`. -/
def Limited (pkgname servicename : Bytes) (k : ℕ) (m : ServiceMgr) : Prop :=
  ∀ svc ∈ m.serviceInfoList, svc.instList.length ≤
    if svc.Named pkgname servicename then k else 2 ^ 32 - 1

variable {strings : Bytes} {m' : ServiceMgr} {insts : Bytes}

theorem loadInstances_limited {pkgname servicename : Bytes} {instoffset instcnt k : ℕ}
    (hm : Limited pkgname servicename k m)
    (h : loadInstances insts strings pkgname servicename m instoffset instcnt = some m') :
    Limited pkgname servicename (k + instcnt) m' := by
  induction instcnt generalizing m instoffset k with
  | zero =>
      obtain rfl : m = m' := some.inj h
      exact hm
  | succ instcnt ih =>
      simp only [loadInstances, bind_eq_bind, bind_eq_some_iff] at h
      obtain ⟨offset, -, name, -, h⟩ := h
      rw [Nat.add_comm instcnt, ← Nat.add_assoc]
      refine ih (fun svc' hsvc' => ?_) h
      obtain ⟨svc, hsvc, rfl⟩ := mem_map.mp hsvc'
      have hold := hm svc hsvc
      by_cases hnamed : svc.Named pkgname servicename = true
      · have hgrows := length_addInstance_le svc (some name)
        rw [if_pos hnamed] at hold
        rw [if_pos hnamed, (addInstance_keepsNames (some name)).named svc, if_pos hnamed]
        exact Nat.le_trans hgrows (Nat.succ_le_succ hold)
      · rw [if_neg hnamed] at hold
        rwa [if_neg hnamed, if_neg hnamed]

/-- No service that is loaded has more instances than its entry can count. -/
theorem loadService_limited {entries : Bytes} {i : ℕ}
    (hm : ∀ svc ∈ m.serviceInfoList, svc.instList.length < 2 ^ 32)
    (h : loadService entries insts strings m i = some m') :
    ∀ svc ∈ m'.serviceInfoList, svc.instList.length < 2 ^ 32 := by
  simp only [loadService, bind_eq_bind, bind_eq_some_iff] at h
  obtain ⟨e, -, pkgname, -, servicename, -, executive, -, ipaddr, -, h⟩ := h
  rw [addService] at h
  split at h
  · cases h
  · rename_i hnone
    have hnone := not_isSome_iff_eq_none.mp hnone
    have hnew : Limited pkgname servicename 0 ⟨m.serviceInfoList ++
        [⟨.new pkgname servicename none (some executive) ipaddr e.port e.version
          (.ofUInt32 e.flag), 0, []⟩], m.serviceCnt + 1⟩ := by
      refine forall_mem_append.mpr ⟨fun svc hsvc => ?_,
        forall_mem_singleton.mpr (Nat.zero_le _)⟩
      have hother := find?_eq_none.mp hnone svc hsvc
      have hle := hm svc hsvc
      rw [if_neg hother]
      omega
    have hlimited := loadInstances_limited hnew h
    intro svc hsvc
    have hle := hlimited svc hsvc
    have hcnt := e.instcnt.toNat_lt
    split at hle
    · omega
    · omega

theorem loadServices_limited {entries : Bytes} {i left : ℕ}
    (hm : ∀ svc ∈ m.serviceInfoList, svc.instList.length < 2 ^ 32)
    (h : loadServices entries insts strings m i left = some m') :
    ∀ svc ∈ m'.serviceInfoList, svc.instList.length < 2 ^ 32 := by
  induction left generalizing m i with
  | zero =>
      obtain rfl : m = m' := some.inj h
      exact hm
  | succ left ih =>
      simp only [loadServices, bind_eq_bind, bind_eq_some_iff] at h
      obtain ⟨m₁, hfirst, h⟩ := h
      exact ih (loadService_limited hm hfirst) h

/-! ## the sizes of a file that is loaded as it was saved -/

variable {sha256 : Bytes → Digest}

/-- What `save_config_file` did where it left a file. -/
theorem saveConfigFile_inv {file : Bytes} (h : m.saveConfigFile sha256 = some (some file, 0)) :
    ∃ f hdr final, m.saveSections = some ((f, hdr), 0) ∧
      m.savedText = some (digestText f hdr).1 ∧
      final = { hdr with
        digest := sha256 (digestText f hdr).1
        size := UInt32.ofNat f.data.length } ∧
      file = writeAt f.data 0 final.bytes := by
  simp only [saveConfigFile, bind_eq_bind, bind_eq_some_iff] at h
  obtain ⟨⟨⟨f, hdr⟩, ret⟩, hsave, h⟩ := h
  dsimp only at h
  split at h
  · cases h
  · rename_i hret
    rw [not_not.mp hret] at hsave
    refine ⟨f, hdr, _, hsave, by rw [savedText, hsave]; rfl, rfl, ?_⟩
    exact (some.inj (congrArg Prod.fst (some.inj h))).symm

variable {hdr : ServiceConfigHeader}

/-- What `save_service_bin` did where it wrote the sections. -/
theorem saveSections_inv {f : AbsFile} (h : m.saveSections = some ((f, hdr), 0)) :
    ∃ w, writeServicesInfo
        (UInt32.ofNat (sizeofHeader + m.newHeader.serviceCount.toNat * sizeofEntry))
        ⟨(AbsFile.seekSet ⟨[], 0⟩ 0).write m.newHeader.bytes, [], 0, 0⟩ m.serviceInfoList =
          some (w, 0) ∧
      (f, hdr) = writeServiceStringSection w.file w.sect
        { m.newHeader with
          instanceCount := w.instanceCount
          instanceStart :=
            UInt32.ofNat (sizeofHeader + m.newHeader.serviceCount.toNat * sizeofEntry) } := by
  simp only [saveSections, bind_eq_bind, bind_eq_some_iff] at h
  obtain ⟨⟨w, ret⟩, hwrite, h⟩ := h
  dsimp only at h
  split at h
  · cases h
  · rename_i hret
    rw [not_not.mp hret] at hwrite
    exact ⟨w, hwrite, (congrArg Prod.fst (some.inj h)).symm⟩

/-- A file that is loaded has a text of the digest in its header, and counts what is loaded. -/
theorem loadConfigFile_inv {back : Bytes} (hmagic : hdr.magic.length = 24) {fresh : ℕ → UInt8}
    (h : loadConfigFile sha256 fresh {} (hdr.bytes ++ back) = some (m, 0)) :
    ¬ hdr.size < 56 ∧ sha256 (loadText fresh hdr back) = hdr.digest ∧
      ∀ svc ∈ m.serviceInfoList, svc.instList.length < 2 ^ 32 := by
  have hfields : readWords 7 ((hdr.bytes ++ back).drop 56) = some hdr.fields := by
    rw [drop_digest hmagic]
    exact readWords_words hdr.fields back
  rw [loadConfigFile_of_fields hfields, drop_all hmagic, take_digest hmagic] at h
  split at h
  · cases h
  · rename_i hsize
    split at h
    · cases h
    · rename_i hdigest
      obtain ⟨m', hload, heq⟩ := map_eq_some_iff.mp h
      obtain rfl : m' = m := congrArg Prod.fst heq
      exact ⟨hsize, Subtype.ext (not_not.mp hdigest),
        loadServices_limited (fun _ hsvc => absurd hsvc not_mem_nil) hload⟩

theorem length_le_sectSize (svcs : List ServiceImpl) : svcs.length ≤ sectSize svcs := by
  induction svcs with
  | nil => exact Nat.le_refl 0
  | cons svc svcs ih =>
      rw [sectSize] at ih
      rw [sectSize, map_cons, sum_cons, length_cons, namesSize, textSize]
      omega

theorem Kept.serviceCount (hm : Kept m) :
    m.newHeader.serviceCount = UInt32.ofNat m.serviceInfoList.length := by
  have hmod : (m.serviceCnt % 2 ^ 32).toNat = m.serviceInfoList.length % 2 ^ 32 := by
    rw [hm.cnt]
    omega
  apply UInt32.toNat_inj.mp
  rw [newHeader, hmod, UInt32.toNat_ofNat', UInt32.toNat_ofNat', Nat.mod_mod]

/-- The sizes after the services are written. -/
theorem sized_of_writeServicesInfo (hm : Kept m)
    (hcounts : ∀ svc ∈ m.serviceInfoList, svc.instList.length < 2 ^ 32)
    (h : writeServicesInfo
      (UInt32.ofNat (sizeofHeader + m.newHeader.serviceCount.toNat * sizeofEntry))
      ⟨(AbsFile.seekSet ⟨[], 0⟩ 0).write m.newHeader.bytes, [], 0, 0⟩ m.serviceInfoList =
        some (w, 0)) : Sized m.serviceInfoList.length w m.serviceInfoList := by
  have hstart : UInt32.ofNat (sizeofHeader + m.newHeader.serviceCount.toNat * sizeofEntry) =
      UInt32.ofNat (sizeofHeader + sizeofEntry * m.serviceInfoList.length) := by
    apply UInt32.toNat_inj.mp
    rw [hm.serviceCount, UInt32.toNat_ofNat', UInt32.toNat_ofNat', UInt32.toNat_ofNat', sizeofEntry]
    omega
  rw [hstart] at h
  have hlen : ((AbsFile.seekSet ⟨[], 0⟩ 0).write m.newHeader.bytes).data.length = sizeofHeader := by
    have hbytes : m.newHeader.bytes.length = sizeofHeader := length_header length_serviceMagic
    rw [← hbytes]
    exact congrArg List.length (writeAt_end [] m.newHeader.bytes)
  have hinit : Sized m.serviceInfoList.length
      ⟨(AbsFile.seekSet ⟨[], 0⟩ 0).write m.newHeader.bytes, [], 0, 0⟩ [] := by
    refine ⟨rfl, rfl, rfl, Nat.zero_le _, ?_, ?_, ?_⟩
    · exact Nat.le_of_eq hlen.symm
    · rw [hlen]
      omega
    · intro front svc back heq
      exact absurd heq.symm (by simp)
  exact writeServicesInfo_sizes hinit rfl (fun svc hsvc => (hm.svcs svc hsvc).toWritable) hcounts h

theorem writeServiceStringSection_sizes {file f : AbsFile} {hdr' : ServiceConfigHeader}
    (h : (f, hdr') = writeServiceStringSection file sect hdr) (hsect : sect.length ≠ 0)
    (hlow : sizeofHeader ≤ file.data.length) (hmagic : hdr.magic.length = 24) :
    f.data.length = file.data.length + sect.length ∧ hdr'.serviceCount = hdr.serviceCount ∧
      hdr'.instanceCount = hdr.instanceCount ∧ hdr'.stringSize = UInt32.ofNat sect.length := by
  rw [writeServiceStringSection, if_pos hsect] at h
  obtain ⟨rfl, rfl⟩ := Prod.mk.inj h
  refine ⟨?_, rfl, rfl, rfl⟩
  have hend : (file.seekEnd.write sect).data = file.data ++ sect := writeAt_end file.data sect
  have hlen : { hdr with
      startOfStringSection := UInt32.ofNat file.seekEnd.pos
      stringSize := UInt32.ofNat sect.length : ServiceConfigHeader }.bytes.length =
        sizeofHeader := length_header hmagic
  show (writeAt (file.seekEnd.write sect).data 0 _).length = _
  rw [hend, writeAt_zero, length_append, hlen, length_drop, length_append]
  omega

/-- A state with services fits, if its file is loaded. -/
theorem fits_of_loaded (hm : Kept m) (hne : m.serviceInfoList ≠ []) {file : Bytes}
    (hsave : m.saveConfigFile sha256 = some (some file, 0)) {fresh : ℕ → UInt8}
    (hload : loadConfigFile sha256 fresh {} file = some (m, 0))
    (hsha : ∀ text, m.savedText = some text → ∀ text', sha256 text' = sha256 text → text' = text) :
    Fits m := by
  obtain ⟨f, hdr, final, hsec, htext, hfinal, rfl⟩ := saveConfigFile_inv hsave
  obtain ⟨w, hwrite, hstrings⟩ := saveSections_inv hsec
  have hmagic : final.magic.length = 24 := by
    rw [writeServiceStringSection] at hstrings
    split at hstrings
    · rw [hfinal, (Prod.mk.inj hstrings).2]
      exact length_serviceMagic
    · rw [hfinal, (Prod.mk.inj hstrings).2]
      exact length_serviceMagic
  -- what the reader digests is what the writer digested
  rw [writeAt_zero] at hload
  obtain ⟨hsize, hdigest, hcounts⟩ := loadConfigFile_inv hmagic hload
  rw [hfinal] at hdigest
  have hlen := congrArg List.length (hsha _ htext _ hdigest)
  rw [length_loadText, digestText, length_append, length_u32, length_drop] at hlen
  have hw := sized_of_writeServicesInfo hm hcounts hwrite
  have hlist := length_le_sectSize m.serviceInfoList
  have hpos : w.sect.length ≠ 0 := by
    have hone := length_pos_of_ne_nil hne
    rw [hw.room]
    omega
  have hlow := hw.low
  obtain ⟨hf, hservices, hinstances, hsize'⟩ :=
    writeServiceStringSection_sizes hstrings hpos (by omega) length_serviceMagic
  have hsect := hw.sect
  have hmax : maxSect = 2 ^ 31 - 1024 := rfl
  have hinsts := two_mul_instanceTotal_le_sectSize fun svc hsvc => (hm.svcs svc hsvc).toWritable
  have hroom := hw.room
  rw [hservices, hinstances, hsize', hm.serviceCount, hw.icnt, UInt32.toNat_mul, UInt32.toNat_mul,
    toNat_ofNat_of_lt (by omega), toNat_ofNat_of_lt (by omega), toNat_ofNat_of_lt (by omega),
    show (36 : UInt32).toNat = 36 from rfl, show (4 : UInt32).toNat = 4 from rfl, hf] at hlen
  have hdata : w.file.data.length = sizeofHeader + sizeofEntry * m.serviceInfoList.length % 2 ^ 32 +
      4 * instanceTotal m.serviceInfoList := by
    rw [sizeofHeader, sizeofEntry] at hlow ⊢
    omega
  have hentries : sizeofEntry * m.serviceInfoList.length < 2 ^ 32 := by omega
  refine ⟨by omega, hentries, ?_, ?_⟩
  · intro front svc back hlist hinst
    by_contra hlarge
    have hshort := hw.short front svc back hlist hinst (Nat.not_lt.mp hlarge)
    omega
  · have hfile : fileSize m = f.data.length := by
      rw [hf, fileSize]
      omega
    rw [hfinal, UInt32.lt_iff_toNat_lt, UInt32.toNat_ofNat',
      show (56 : UInt32).toNat = 56 from rfl, Nat.not_lt] at hsize
    rwa [hfile]

end V2I.Mware.ServiceMgr
