import V2I.Mware.ServiceMgr.Sizes

/-!
# V2I.Mware.ServiceMgr.Restored

Saving and loading the service configuration file, over the states that the operations reach. What
was saved is loaded, and a changed file is refused, where there is a service and the sizes fit
(`restored_iff`). Without a service the string section is empty, and then the header that was
digested is not the one that is written last: the file is refused (`not_restored_nil`).
-/

namespace V2I.Mware.ServiceMgr

open ByteFile List Option

variable {m : ServiceMgr} {sha256 : Bytes → Digest}

/-- What `save_config_file` writes is loaded into an empty manager as it was, and refused where a
byte behind the digest differs, whatever the buffers of the reader hold. -/
def Restored (sha256 : Bytes → Digest) (m : ServiceMgr) : Prop :=
  ∃ file, m.saveConfigFile sha256 = some (some file, 0) ∧
    (∀ fresh, loadConfigFile sha256 fresh {} file = some (m, 0)) ∧
    ∀ fresh i b, 56 ≤ i → (h : i < file.length) → file[i] ≠ b →
      ∃ ret, ret ≠ 0 ∧ loadConfigFile sha256 fresh {} (file.set i b) = some ({}, ret)

/-- No other text has the digest of the one that is saved. -/
def NoCollision (sha256 : Bytes → Digest) (m : ServiceMgr) : Prop :=
  ∀ text, m.savedText = some text → ∀ text', sha256 text' = sha256 text → text' = text

/-- A function with the digest of one text, and another for all others. -/
def digestOnly (text : Bytes) (digest other : Digest) : Bytes → Digest :=
  fun t => if t = text then digest else other

theorem noCollision_digestOnly {text : Bytes} (htext : m.savedText = some text)
    {digest other : Digest} (hne : other ≠ digest) :
    NoCollision (digestOnly text digest other) m := by
  intro t ht t' hsame
  obtain rfl : text = t := some.inj (htext.symm.trans ht)
  simp only [digestOnly, if_true] at hsame
  by_contra hother
  rw [if_neg hother] at hsame
  exact hne hsame

theorem Kept.restored (hm : Kept m) (hne : m.serviceInfoList ≠ []) (hfits : Fits m)
    (hsha : NoCollision sha256 m) : Restored sha256 m := by
  have hsvcs : ∀ svc ∈ m.serviceInfoList, Writable svc :=
    fun svc hsvc => (hm.svcs svc hsvc).toWritable
  obtain ⟨hdr, entries, offsets, sect, hsave, htext, hdigest, hsize, hstored⟩ :=
    saveConfigFile_does hm.cnt hsvcs hfits hne sha256
  refine ⟨_, hsave, fun fresh => ?_, fun fresh i b hi hlt hb => ?_⟩
  · exact loadConfigFile_does hstored hfits hsize hdigest hm.cnt hm.svcs hm.distinct fresh
  · have hsplit : hdr.bytes ++ sections entries offsets sect = hdr.magic ++ hdr.digest.val ++
        (words hdr.fields ++ sections entries offsets sect) := by
      rw [ServiceConfigHeader.bytes, append_assoc _ (words hdr.fields)]
    have hfront : (hdr.magic ++ hdr.digest.val).length = 56 := by
      rw [length_append, hstored.magic, hdr.digest.2]
    have hset : (hdr.bytes ++ sections entries offsets sect).set i b =
        hdr.magic ++ hdr.digest.val ++
          (words hdr.fields ++ sections entries offsets sect).set (i - 56) b := by
      rw [hsplit, set_append_right _ _ (by rw [hfront]; exact hi), hfront]
    rw [hset]
    refine loadConfigFile_changed hstored hfits hsvcs (fun text heq => ?_)
      (length_set ..) (fun heq => hb ?_) fresh
    · exact hsha _ htext text (by rw [heq, hdigest])
    · have hlt' : i < ((hdr.bytes ++ sections entries offsets sect).set i b).length := by
        rwa [length_set]
      have hget : ((hdr.bytes ++ sections entries offsets sect).set i b)[i] = b :=
        getElem_set_self _
      rw [← hget]
      congr 1
      rw [hset, heq, hsplit]

/-! ## a state without services -/

/-- The text that is digested where there are no services. -/
def emptyText : Bytes := words [84, 0, 0, 0, 0, 0, 0]

/-- The header that is written last where there are no services. -/
def emptyHeader (digest : Digest) : ServiceConfigHeader :=
  ⟨serviceMagic, digest, 84, 0, 0, 0, 84, 0, 0⟩

theorem saveSections_empty : saveSections {} =
    some ((⟨(newHeader {}).bytes, 84⟩, { newHeader {} with instanceStart := 84 }), 0) := by
  have hlen : (newHeader {}).bytes.length = 84 := length_header length_serviceMagic
  have hfile : (AbsFile.seekSet ⟨[], 0⟩ 0).write (newHeader {}).bytes =
      ⟨(newHeader {}).bytes, 84⟩ := by
    rw [AbsFile.write, ← Nat.zero_add 84, ← hlen]
    exact congrArg (AbsFile.mk · _) (writeAt_end [] _)
  simp only [saveSections, hfile]
  rfl

/-- The header on disk has no start of the instances, the one that is written last has. -/
theorem digestText_empty :
    digestText ⟨(newHeader {}).bytes, 84⟩ { newHeader {} with instanceStart := 84 } =
      (emptyText, emptyHeader (newHeader {}).digest) := by
  have hmagic : (newHeader {}).magic.length = 24 := length_serviceMagic
  have hdrop := drop_header hmagic []
  rw [append_nil, append_nil] at hdrop
  rw [digestText, length_header hmagic, hdrop]
  rfl

theorem savedText_empty : savedText {} = some emptyText := by
  rw [savedText, saveSections_empty, map_some, digestText_empty]

theorem saveConfigFile_empty (sha256 : Bytes → Digest) :
    saveConfigFile sha256 {} = some (some (emptyHeader (sha256 emptyText)).bytes, 0) := by
  have hold : (newHeader {}).magic.length = 24 := length_serviceMagic
  have hnew : (emptyHeader (sha256 emptyText)).magic.length = 24 := length_serviceMagic
  have hwrite := writeAt_header hold hnew []
  rw [append_nil, append_nil] at hwrite
  simp only [saveConfigFile, saveSections_empty, bind_eq_bind, bind_some, ne_eq,
    not_true_eq_false, if_false, digestText_empty]
  exact congrArg (fun data => some (some data, 0)) hwrite

/-- The file of a state without services is refused. -/
theorem loadConfigFile_empty (hsha : NoCollision sha256 {}) (fresh : ℕ → UInt8) :
    loadConfigFile sha256 fresh {} (emptyHeader (sha256 emptyText)).bytes = some ({}, -2) := by
  obtain ⟨hdr, hhdr⟩ : ∃ hdr, hdr = emptyHeader (sha256 emptyText) := ⟨_, rfl⟩
  have hmagic : hdr.magic.length = 24 := by rw [hhdr]; exact length_serviceMagic
  have hfields : hdr.fields = [84, 0, 0, 0, 84, 0, 0] := by rw [hhdr]; rfl
  have hread : readWords 7 ((hdr.bytes ++ []).drop 56) = some hdr.fields := by
    rw [drop_digest hmagic]
    exact readWords_words hdr.fields []
  have htext : loadText fresh hdr [] = words hdr.fields := by rw [hhdr]; rfl
  have hne : sha256 (loadText fresh hdr []) ≠ hdr.digest := by
    intro heq
    rw [hhdr] at heq
    have hsame := hsha emptyText savedText_empty _ heq
    rw [← hhdr, htext, hfields] at hsame
    have hlist : [84, 0, 0, 0, 84, 0, 0] = ([84, 0, 0, 0, 0, 0, 0] : List UInt32) :=
      words_injective rfl hsame
    exact absurd hlist (by decide)
  have hsize : ¬ hdr.size < 56 := by
    rw [hhdr]
    show ¬ (84 : UInt32) < 56
    decide
  rw [← hhdr, ← append_nil hdr.bytes, loadConfigFile_of_fields hread, if_neg hsize,
    drop_all hmagic, take_digest hmagic, if_pos fun heq => hne (Subtype.ext heq)]

/-- A reachable state without services is the one that was started from. -/
theorem Kept.eq_empty (hm : Kept m) (hnil : m.serviceInfoList = []) : m = {} := by
  obtain ⟨svcs, cnt⟩ := m
  obtain rfl : svcs = [] := hnil
  have hcnt : cnt = 0 := hm.cnt
  rw [hcnt]

theorem not_restored_empty (hsha : NoCollision sha256 {}) : ¬ Restored sha256 {} := by
  rintro ⟨file, hsave, hload, -⟩
  rw [saveConfigFile_empty] at hsave
  obtain rfl := some.inj (congrArg Prod.fst (some.inj hsave))
  have hret := hload fun _ => 0
  rw [loadConfigFile_empty hsha] at hret
  exact absurd (congrArg Prod.snd (some.inj hret)) (by decide)

/-- The digests of the one text that is saved without services, and of the one that is read. -/
def emptyDigests : Bytes → Digest :=
  digestOnly emptyText
    ⟨[17, 60, 165, 132, 3, 34, 191, 62, 175, 97, 230, 252, 151, 209, 39, 197, 176, 78, 228, 179,
      96, 164, 151, 133, 194, 167, 168, 25, 196, 52, 160, 138], by decide⟩
    ⟨[255, 230, 1, 125, 232, 76, 15, 28, 251, 49, 165, 116, 154, 101, 243, 64, 213, 231, 144, 204,
      63, 38, 208, 149, 234, 158, 44, 135, 176, 189, 42, 27], by decide⟩

/-- The state before any call is saved, but not restored. -/
theorem not_restored_nil :
    NoCollision emptyDigests (run []) ∧ ¬ Restored emptyDigests (run []) := by
  have hsha : NoCollision emptyDigests {} := noCollision_digestOnly savedText_empty (by decide)
  exact ⟨hsha, not_restored_empty hsha⟩

/-! ## runs -/

/-- Saving and loading are inverse, and a changed file is refused, exactly where there is a service
and the sizes fit. -/
theorem restored_iff (sha256 : Bytes → Digest) (ops : List Op)
    (hsha : NoCollision sha256 (run ops)) :
    Restored sha256 (run ops) ↔ (run ops).serviceInfoList ≠ [] ∧ Fits (run ops) := by
  have hm := kept_run ops
  constructor
  · intro h
    have hne : (run ops).serviceInfoList ≠ [] := by
      intro hnil
      rw [hm.eq_empty hnil] at h hsha
      exact not_restored_empty hsha h
    obtain ⟨file, hsave, hload, -⟩ := h
    exact ⟨hne, fits_of_loaded hm hne hsave (hload fun _ => 0) hsha⟩
  · rintro ⟨hne, hfits⟩
    exact hm.restored hne hfits hsha

/-- A service with an instance. -/
def sampleOps : List Op :=
  [.addService ⟨ascii "p", by decide⟩ ⟨ascii "s", by decide⟩ none none 80 1 { singleton := 1 },
   .addInstance ⟨ascii "p", by decide⟩ ⟨ascii "s", by decide⟩ (some ⟨ascii "i", by decide⟩)]

def sampleText : Bytes :=
  words [131, 0, 1, 1, 120, 124, 7] ++ words [0, 2, 4, 0, 80, 1, 36, 1, 0] ++ words [5] ++
    [112, 0, 115, 0, 0, 105, 0]

theorem savedText_sample : (run sampleOps).savedText = some sampleText := by
  decide +kernel

def sampleDigests : Bytes → Digest :=
  digestOnly sampleText
    ⟨[46, 193, 71, 61, 211, 232, 230, 208, 35, 17, 147, 18, 251, 232, 89, 126, 204, 108, 112, 103,
      176, 49, 224, 255, 33, 203, 18, 14, 237, 11, 232, 130], by decide⟩
    ⟨List.replicate 32 1, length_replicate⟩

theorem restored_iff_sample :
    NoCollision sampleDigests (run sampleOps) ∧
      (Restored sampleDigests (run sampleOps) ↔
        (run sampleOps).serviceInfoList ≠ [] ∧ Fits (run sampleOps)) :=
  have hsha : NoCollision sampleDigests (run sampleOps) :=
    noCollision_digestOnly savedText_sample (by decide)
  ⟨hsha, restored_iff sampleDigests sampleOps hsha⟩

end V2I.Mware.ServiceMgr
