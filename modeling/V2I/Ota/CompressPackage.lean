import V2I.Ota.CompressionWorker

/-!
# V2I.Ota.CompressPackage

The last step of the packaging tool, `pack_generator::compress_package` (`pack.cpp`), and the
function that tells the kinds of packages apart, `otapack_gettype` (`ota-package.cpp`).
-/

namespace V2I.Ota

/-! ## The kinds of packages -/

/-- `OTAPACK_MAGIC`, with its terminating null -/
def OTAPACK_MAGIC : List UInt8 := [79, 84, 65, 80, 65, 67, 75, 0]

/-- `OTA_BUNDLE_MAGIC`: `otabundlepackage` -/
def OTA_BUNDLE_MAGIC : List UInt8 :=
  [111, 116, 97, 98, 117, 110, 100, 108, 101, 112, 97, 99, 107, 97, 103, 101]

/-- `COMPRESSED_BUNDLE_MAGIC`: `compressedbundle` -/
def COMPRESSED_BUNDLE_MAGIC : List UInt8 :=
  [99, 111, 109, 112, 114, 101, 115, 115, 101, 100, 98, 117, 110, 100, 108, 101]

/-- `ota_filetype` -/
inductive FileType
  | unknown
  | regularPackage
  | bundlePackage
  | compressedPackage
  deriving DecidableEq

/-- `otapack_gettype` of a file with this content, if there is one. -/
def otapackGettype : Option (List UInt8) → FileType
  | none => .unknown
  | some file =>
      if file.length < 8 then .unknown
      else if file.take 8 = OTAPACK_MAGIC then .regularPackage
      else if file.length < 16 then .unknown
      else if file.take 16 = OTA_BUNDLE_MAGIC then .bundlePackage
      else if file.take 16 = COMPRESSED_BUNDLE_MAGIC then .compressedPackage
      else .unknown

/-! ## Compressing a package -/

/-- What `compress_package` looks at of `otapack_config`. -/
structure OtapackConfig where
  needCompress : Bool
  compressLevel : Fin 16
  compressionBlockSize : UInt32

/-- `compressed_bundle_fileheader_v1` -/
structure CompressedBundleFileheader where
  magic : List UInt8
  disigEnvelopePos : UInt64
  version : UInt32
  fileSize : UInt64
  blockSize : UInt32
  blockCount : UInt32

/-- `COMPRESSED_BUNDLE_VERSION` -/
def COMPRESSED_BUNDLE_VERSION : UInt32 := 0x01000000

/-- The structure in a file: four bytes fill up the version. -/
def CompressedBundleFileheader.bytes (h : CompressedBundleFileheader) (padding : List UInt8) :
    List UInt8 :=
  h.magic ++ ByteFile.u64 h.disigEnvelopePos.toNat ++ ByteFile.u32 h.version ++ padding ++
    ByteFile.u64 h.fileSize.toNat ++ ByteFile.u32 h.blockSize ++ ByteFile.u32 h.blockCount

/-- The block size of the configuration, in its bounds. -/
def headerBlockSize (cfg : OtapackConfig) : ℕ :=
  let blockSize := cfg.compressionBlockSize.toNat
  let blockSize := if blockSize < OTA_MIN_BLKSZ then OTA_MIN_BLKSZ else blockSize
  if OTA_MAX_BLKSZ < blockSize then OTA_MAX_BLKSZ else blockSize

/-- `init_compress_fileheader(rfp, wfp, header)`. The `memcpy` of the whole header from the magic
text goes on behind that, so `behind` comes from the memory there. -/
def initCompressFileheader (cfg : OtapackConfig) (behind : UInt64) (content : List UInt8) :
    Option CompressedBundleFileheader :=
  if content.length = 0 then none
  else
    let count := content.length / headerBlockSize cfg
    let count := if content.length % headerBlockSize cfg = 0 then count else count + 1
    some ⟨COMPRESSED_BUNDLE_MAGIC, behind, COMPRESSED_BUNDLE_VERSION, content.length.toUInt64,
      (headerBlockSize cfg).toUInt32, count.toUInt32⟩

/-- `compressed_bundle_blockinfo_v1` of a block, and its compressed content. -/
def bundleBlock (len : ℕ) (content : List UInt8) : List UInt8 :=
  ByteFile.u32 len.toUInt32 ++ ByteFile.u32 content.length.toUInt32 ++ content

/-- The level of the configuration, in its bounds. -/
def bundleLevel (cfg : OtapackConfig) : ℕ :=
  let level := cfg.compressLevel.val
  let level := if level < 1 then 1 else level
  if 9 < level then 9 else level

/-- The loop of `do_compress_package` with `left` blocks to go: its result and what has been
written. There is no result when an assertion fails. -/
def compressBlocks (z : Zlib) (blockSize level : ℕ) :
    ℕ → Reader → List UInt8 → Option (ℤ × List UInt8)
  | 0, rfp, written => if rfp.eof then some (0, written) else none
  | left + 1, rfp, written =>
      let data := (rfp.fread blockSize).1
      let rfp := (rfp.fread blockSize).2
      if data.length ≠ blockSize ∧ !rfp.eof then some (-3, written)
      else if data.length ≠ blockSize ∧ left ≠ 0 then none
      else
        match z.compress2 (z.compressBound blockSize) data level with
        | none => some (-4, written)
        | some content =>
            compressBlocks z blockSize level left rfp (written ++ bundleBlock data.length content)

/-- `do_compress_package(rfp, wfp)` -/
def doCompressPackage (z : Zlib) (cfg : OtapackConfig) (behind : UInt64) (content : List UInt8) :
    Option (ℤ × List UInt8) :=
  match initCompressFileheader cfg behind content with
  | none => some (-1, [])
  | some header =>
      compressBlocks z header.blockSize.toNat (bundleLevel cfg) header.blockCount.toNat
        (Reader.opened content) []

/-- Whether the package can be renamed, and the two files opened. -/
structure FileOps where
  renames : Bool
  opensRead : Bool
  opensWrite : Bool

/-- `compress_package()` for a package `pkg` in the file `_destfile`: its result, and what is in
that file afterwards. -/
def compressPackage (z : Zlib) (cfg : OtapackConfig) (behind : UInt64) (ops : FileOps)
    (destfile pkg : List UInt8) : Option (ℤ × Option (List UInt8)) :=
  if !cfg.needCompress then some (0, some pkg)
  else if destfile.isEmpty then some (-1, some pkg)
  else if !ops.renames then some (-2, some pkg)
  else if !ops.opensRead then some (-3, none)
  else if !ops.opensWrite then some (-4, none)
  else (doCompressPackage z cfg behind pkg).map fun r => (r.1, some r.2)

/-! ## What it is for -/

/-- A package as `generate` leaves it: it begins with the magic of its header. -/
structure Package where
  bytes : List UInt8
  magic : OTAPACK_MAGIC <+: bytes

/-- The blocks that stand one behind the other, each behind its two sizes. -/
def decodeBundle (z : Zlib) (body : List UInt8) : Option (List (List UInt8)) :=
  if body.isEmpty then some []
  else
    match ByteFile.readU32 body, ByteFile.readU32 (body.drop 4) with
    | some len, some sz =>
        match z.uncompress ((body.drop 8).take sz.toNat) with
        | some block =>
            if block.length = len.toNat then
              (decodeBundle z (body.drop (8 + sz.toNat))).map (block :: ·)
            else none
        | none => none
    | _, _ => none
termination_by body.length
decreasing_by
  have hpos : 0 < body.length := List.length_pos_iff.mpr fun h => by simp_all
  rw [List.length_drop]
  omega

/-- The package is compressed: without a failed assertion, to a file that is told apart as a
compressed package, and whose header and blocks are those of the package. -/
def Compresses (z : Zlib) (cfg : OtapackConfig) (behind : UInt64) (ops : FileOps)
    (destfile : List UInt8) (pkg : Package) : Prop :=
  ∃ file, compressPackage z cfg behind ops destfile pkg.bytes = some (0, some file) ∧
    otapackGettype (some file) = .compressedPackage ∧
    ∃ (header : CompressedBundleFileheader) (padding body : List UInt8)
      (blocks : List (List UInt8)),
      padding.length = 4 ∧ file = header.bytes padding ++ body ∧
      header.fileSize.toNat = pkg.bytes.length ∧ header.blockSize.toNat = headerBlockSize cfg ∧
      header.blockCount.toNat = blocks.length ∧ decodeBundle z body = some blocks ∧
      blocks.flatten = pkg.bytes

theorem headerBlockSize_bounds (cfg : OtapackConfig) :
    OTA_MIN_BLKSZ ≤ headerBlockSize cfg ∧ headerBlockSize cfg ≤ OTA_MAX_BLKSZ := by
  unfold headerBlockSize OTA_MIN_BLKSZ OTA_MAX_BLKSZ
  simp only
  split <;> split <;> omega

theorem bundleLevel_bounds (cfg : OtapackConfig) : 1 ≤ bundleLevel cfg ∧ bundleLevel cfg ≤ 9 := by
  unfold bundleLevel
  simp only
  split <;> split <;> omega

variable {content : List UInt8}

theorem blockSize_initCompressFileheader {cfg : OtapackConfig} {behind : UInt64}
    {header : CompressedBundleFileheader}
    (h : initCompressFileheader cfg behind content = some header) :
    header.blockSize.toNat = headerBlockSize cfg := by
  have hlt : headerBlockSize cfg < UInt32.size :=
    (headerBlockSize_bounds cfg).2.trans_lt (by decide)
  unfold initCompressFileheader at h
  split at h
  · cases h
  · rw [← Option.some_inj.mp h]
    exact UInt32.toNat_ofNat_of_lt hlt

/-! ## What is left in the file -/

variable {file : List UInt8}

/-- What has been written stays. -/
theorem written_compressBlocks {z : Zlib} {blockSize level left : ℕ} {rfp : Reader}
    {written : List UInt8} {ret : ℤ}
    (h : compressBlocks z blockSize level left rfp written = some (ret, file)) :
    written <+: file := by
  induction left generalizing rfp written with
  | zero =>
      rw [compressBlocks] at h
      split at h
      · simp_all
      · cases h
  | succ left ih =>
      rw [compressBlocks] at h
      split at h
      · simp_all
      · split at h
        · cases h
        · split at h
          · simp_all
          · exact (List.prefix_append _ _).trans (ih h)

/-- **The file begins with the sizes of the first block.** -/
theorem bundleBlock_of_compressBlocks {z : Zlib} {blockSize level count : ℕ}
    (h : compressBlocks z blockSize level count (Reader.opened content) [] = some (0, file)) :
    ∃ len block, len ≤ blockSize ∧ bundleBlock len block <+: file := by
  cases count with
  | zero => simp [compressBlocks, Reader.opened] at h
  | succ left =>
      rw [compressBlocks] at h
      split at h
      · simp at h
      · split at h
        · cases h
        · split at h
          · simp at h
          · refine ⟨_, _, ?_, written_compressBlocks h⟩
            rw [Reader.fread, List.length_take]
            exact min_le_left _ _

theorem take_of_compressedPackage (h : otapackGettype (some file) = .compressedPackage) :
    file.take 16 = COMPRESSED_BUNDLE_MAGIC := by
  by_contra hne
  simp only [otapackGettype, if_neg hne] at h
  split at h
  · cases h
  · split at h
    · cases h
    · split at h
      · cases h
      · split at h
        · cases h
        · cases h

/-- Such a file is no compressed package: its fourth byte is that of a size. -/
theorem otapackGettype_ne_of_bundleBlock {len : ℕ} {block : List UInt8} (hlen : len ≤ OTA_MAX_BLKSZ)
    (h : bundleBlock len block <+: file) : otapackGettype (some file) ≠ .compressedPackage := by
  intro htype
  obtain ⟨rest, rfl⟩ := h
  have hbyte : UInt8.ofNat (len.toUInt32.toNat / 2 ^ 24) = 112 := by
    have hfour := congrArg (fun bytes : List UInt8 => bytes[3]?) (take_of_compressedPackage htype)
    simpa [bundleBlock, ByteFile.u32, COMPRESSED_BUNDLE_MAGIC] using hfour
  have hnat : len.toUInt32.toNat = len :=
    UInt32.toNat_ofNat_of_lt (hlen.trans_lt (by decide) : len < UInt32.size)
  have hsize : (UInt8.ofNat (len / 2 ^ 24)).toNat = 112 := by
    rw [hnat] at hbyte
    rw [hbyte]
    rfl
  rw [UInt8.toNat_ofNat'] at hsize
  unfold OTA_MAX_BLKSZ at hlen
  omega

theorem otapackGettype_of_magic {rest : List UInt8} :
    otapackGettype (some (OTAPACK_MAGIC ++ rest)) = .regularPackage := by
  have hlen : ¬ (OTAPACK_MAGIC ++ rest).length < 8 := by simp [OTAPACK_MAGIC]
  have htake : (OTAPACK_MAGIC ++ rest).take 8 = OTAPACK_MAGIC := rfl
  rw [otapackGettype, if_neg hlen, if_pos htake]

/-- The file that is left is no compressed package. -/
theorem otapackGettype_ne_of_compressPackage {z : Zlib} {cfg : OtapackConfig} {behind : UInt64}
    {ops : FileOps} {destfile : List UInt8} {pkg : Package}
    (hrun : compressPackage z cfg behind ops destfile pkg.bytes = some (0, some file)) :
    otapackGettype (some file) ≠ .compressedPackage := by
  intro htype
  unfold compressPackage at hrun
  split at hrun
  · -- the package stays as it is
    obtain ⟨rest, hrest⟩ := pkg.magic
    have hfile : file = pkg.bytes := by simpa using hrun.symm
    rw [hfile, ← hrest, otapackGettype_of_magic] at htype
    cases htype
  · split at hrun
    · simp at hrun
    · split at hrun
      · simp at hrun
      · split at hrun
        · simp at hrun
        · split at hrun
          · simp at hrun
          · obtain ⟨r, hr, hfile⟩ := Option.map_eq_some_iff.mp hrun
            obtain ⟨ret, out⟩ := r
            obtain ⟨rfl, hout⟩ := Prod.mk.inj hfile
            obtain rfl := Option.some_inj.mp hout
            unfold doCompressPackage at hr
            split at hr
            · simp at hr
            · next header hheader =>
                rw [blockSize_initCompressFileheader hheader] at hr
                obtain ⟨len, block, hlen, hblock⟩ := bundleBlock_of_compressBlocks hr
                exact otapackGettype_ne_of_bundleBlock
                  (hlen.trans (headerBlockSize_bounds cfg).2) hblock htype

/-- **No package is compressed to a compressed package**, whatever its size and the
configuration. -/
theorem not_compresses (z : Zlib) (cfg : OtapackConfig) (behind : UInt64) (ops : FileOps)
    (destfile : List UInt8) (pkg : Package) : ¬ Compresses z cfg behind ops destfile pkg :=
  fun ⟨_, hrun, htype, _⟩ => otapackGettype_ne_of_compressPackage hrun htype

/-- The smallest package, with the sizes the tool has by default. -/
theorem not_compresses_smallest : ¬ Compresses Zlib.stored ⟨true, 9, 4 * 1024 * 1024⟩ 0
    ⟨true, true, true⟩ [112] ⟨OTAPACK_MAGIC, List.prefix_refl _⟩ :=
  fun ⟨_, hrun, htype, _⟩ => otapackGettype_ne_of_compressPackage hrun htype

/-! ## Where the size is a multiple of the block size -/

/-- **The last assertion fails** when the last block is full: its end is not noticed. -/
theorem compressBlocks_of_dvd (z : Zlib) (cfg : OtapackConfig) (count : ℕ) {written : List UInt8}
    (hlen : content.length = count * headerBlockSize cfg) :
    compressBlocks z (headerBlockSize cfg) (bundleLevel cfg) count (Reader.opened content) written =
      none := by
  induction count generalizing content written with
  | zero => rfl
  | succ count ih =>
      rw [Nat.add_mul, Nat.one_mul] at hlen
      have hle : headerBlockSize cfg ≤ content.length := by omega
      have hfull : (content.take (headerBlockSize cfg)).length = headerBlockSize cfg :=
        List.length_take_of_le hle
      rw [compressBlocks, Reader.fread_of_le hle]
      simp only [hfull]
      rw [if_neg (fun h => h.1 rfl), if_neg (fun h => h.1 rfl),
        z.compress2_of_le hfull.le (bundleLevel_bounds cfg).1 (bundleLevel_bounds cfg).2]
      refine ih ?_
      rw [List.length_drop]
      omega

theorem doCompressPackage_of_dvd (z : Zlib) (cfg : OtapackConfig) (behind : UInt64) {count : ℕ}
    {content : List UInt8} (hlen : content.length = count * headerBlockSize cfg) (hpos : 0 < count)
    (hcount : count < 2 ^ 32) : doCompressPackage z cfg behind content = none := by
  have hblock : 0 < headerBlockSize cfg :=
    Nat.lt_of_lt_of_le (by decide) (headerBlockSize_bounds cfg).1
  have hne : content.length ≠ 0 := by
    rw [hlen]
    exact (Nat.mul_pos hpos hblock).ne'
  have hmod : content.length % headerBlockSize cfg = 0 := by rw [hlen, Nat.mul_mod_left]
  have hdiv : content.length / headerBlockSize cfg = count := by
    rw [hlen, Nat.mul_div_cancel _ hblock]
  cases hinit : initCompressFileheader cfg behind content with
  | none => simp [initCompressFileheader, hne] at hinit
  | some header =>
      have hsize := blockSize_initCompressFileheader hinit
      have hheader : header.blockCount.toNat = count := by
        simp only [initCompressFileheader, if_neg hne, hmod, if_true, hdiv] at hinit
        rw [← Option.some_inj.mp hinit]
        exact UInt32.toNat_ofNat_of_lt hcount
      simp only [doCompressPackage, hinit, hsize, hheader]
      exact compressBlocks_of_dvd z cfg count hlen

/-- One full block. What zlib makes of it does not matter: only the sizes of the content count. -/
theorem doCompressPackage_of_dvd_oneBlock :
    doCompressPackage Zlib.stored ⟨true, 9, 4 * 1024 * 1024⟩ 0
      (List.replicate (headerBlockSize ⟨true, 9, 4 * 1024 * 1024⟩) 0) = none :=
  doCompressPackage_of_dvd _ _ _ (by rw [List.length_replicate, Nat.one_mul]) Nat.one_pos
    (by decide)

end V2I.Ota
