import V2I.Lib.ByteFile
import V2I.Lib.Zlib

/-!
# V2I.Ota.CompressionWorker

The `compression_worker` that writes the file section of a package (`ota-package.cpp`, and with a
progress bar `pack.cpp`): files are read one behind the other into a buffer of one block, and each
block is written when the buffer is full, the last one when the worker is destroyed.

Files can be read and the package takes what is written; the buffer is the list of its first
`_pos` bytes.
-/

namespace V2I.Ota

open List

/-- `OTA_MIN_BLKSZ` -/
def OTA_MIN_BLKSZ : ℕ := 32 * 1024

/-- `OTA_MAX_BLKSZ` -/
def OTA_MAX_BLKSZ : ℕ := 32 * 1024 * 1024

/-- The block size of `normalize_compression_parameter`. -/
def normalizeBlockSize (blockSize : ℤ) : ℕ :=
  if blockSize < OTA_MIN_BLKSZ then OTA_MIN_BLKSZ
  else if OTA_MAX_BLKSZ < blockSize then OTA_MAX_BLKSZ
  else blockSize.toNat

/-- The level of `normalize_compression_parameter`. -/
def normalizeLevel (clevel : ℤ) : ℕ :=
  if clevel < 0 then 0 else if 9 < clevel then 9 else clevel.toNat

theorem normalizeBlockSize_bounds (blockSize : ℤ) :
    OTA_MIN_BLKSZ ≤ normalizeBlockSize blockSize ∧
      normalizeBlockSize blockSize ≤ OTA_MAX_BLKSZ := by
  unfold normalizeBlockSize OTA_MIN_BLKSZ OTA_MAX_BLKSZ
  split
  · omega
  · split <;> omega

theorem normalizeLevel_le (clevel : ℤ) : normalizeLevel clevel ≤ 9 := by
  unfold normalizeLevel
  split
  · omega
  · split <;> omega

/-- `compression_worker`, with what it has written to the package. -/
structure CompressionWorker where
  blockSize : ℕ
  outputSize : ℕ
  clevel : ℕ
  input : List UInt8
  written : List UInt8
  blockSize_pos : 0 < blockSize
  length_input_le : input.length ≤ blockSize

namespace CompressionWorker

/-- `compression_worker(blksz, clevel, wfp)` -/
def new (z : Zlib) (blksz clevel : ℤ) : CompressionWorker where
  blockSize := normalizeBlockSize blksz
  outputSize := z.compressBound (normalizeBlockSize blksz)
  clevel := normalizeLevel clevel
  input := []
  written := []
  blockSize_pos := Nat.lt_of_lt_of_le (by decide) (normalizeBlockSize_bounds blksz).1
  length_input_le := Nat.zero_le _

/-- The buffer is empty, and the package has got this. -/
def flush (w : CompressionWorker) (output : List UInt8) : CompressionWorker :=
  { w with input := [], written := w.written ++ output, length_input_le := Nat.zero_le _ }

/-- `compress()` -/
def compress (z : Zlib) (w : CompressionWorker) : CompressionWorker × ℤ :=
  if w.input.isEmpty then (w, 0)
  else if w.clevel = 0 then (w.flush w.input, 0)
  else
    match z.compress2 w.outputSize w.input w.clevel with
    | none => (w.flush [], -2)
    | some content => (w.flush (ByteFile.u64 content.length ++ content), 0)

/-- The buffer with more bytes in it. -/
def fill (w : CompressionWorker) (data : List UInt8)
    (h : w.input.length + data.length ≤ w.blockSize) : CompressionWorker :=
  { w with input := w.input ++ data, length_input_le := by rwa [length_append] }

theorem length_fread_le (w : CompressionWorker) (fp : Reader) :
    w.input.length + (fp.fread (w.blockSize - w.input.length)).1.length ≤ w.blockSize := by
  have hle := w.length_input_le
  rw [Reader.fread, length_take]
  omega

/-- `append_data(fp)` -/
def appendData (w : CompressionWorker) (fp : Reader) : CompressionWorker × Reader × ℤ :=
  let remain := w.blockSize - w.input.length
  let ret := fp.fread remain
  let w' := w.fill ret.1 (w.length_fread_le fp)
  if ret.1.length < remain then
    if !ret.2.eof then (w', ret.2, -2) else (w', ret.2, (remain - ret.1.length : ℕ))
  else (w', ret.2, 0)

variable {w : CompressionWorker}

/-- A file that does not fill the buffer is at its end. -/
theorem appendData_of_lt {content : List UInt8}
    (hlt : content.length < w.blockSize - w.input.length) : w.appendData (Reader.opened content) =
      (w.fill content (by omega), Reader.mk [] true,
        ((w.blockSize - w.input.length - content.length : ℕ) : ℤ)) := by
  have hread := Reader.fread_of_lt hlt
  simp only [appendData, hread]
  rw [if_pos hlt]
  rfl

/-- A file that fills it is not, even if there is no more of it. -/
theorem appendData_of_le {content : List UInt8}
    (hle : w.blockSize - w.input.length ≤ content.length) :
    w.appendData (Reader.opened content) =
      (w.fill (content.take (w.blockSize - w.input.length))
          (by have := w.length_input_le; rw [length_take]; omega),
        Reader.opened (content.drop (w.blockSize - w.input.length)), 0) := by
  have hread := Reader.fread_of_le hle
  have hlen : (content.take (w.blockSize - w.input.length)).length =
      w.blockSize - w.input.length := length_take_of_le hle
  simp only [appendData, hread, hlen]
  rw [if_neg (Nat.lt_irrefl _)]

@[simp] theorem input_compress (z : Zlib) (w : CompressionWorker) :
    (w.compress z).1.input = [] := by
  unfold compress
  split
  · next h => exact isEmpty_iff.mp h
  · split
    · rfl
    · split <;> rfl

@[simp] theorem blockSize_compress (z : Zlib) (w : CompressionWorker) :
    (w.compress z).1.blockSize = w.blockSize := by
  unfold compress
  split
  · rfl
  · split
    · rfl
    · split <;> rfl

/-- What is left to do of a file. -/
def todo (w : CompressionWorker) (fp : Reader) : ℕ :=
  (if fp.eof then 0 else 1) + 2 * fp.rest.length + if w.input.length = w.blockSize then 1 else 0

variable {fp : Reader}

theorem opened_of_not_eof (heof : ¬ fp.eof) : Reader.opened fp.rest = fp := by
  cases fp
  simp_all [Reader.opened]

theorem todo_appendData (heof : ¬ fp.eof) (hret : (w.appendData fp).2.2 ≠ 0) :
    (w.appendData fp).1.todo (w.appendData fp).2.1 < w.todo fp := by
  rw [← opened_of_not_eof heof] at hret ⊢
  by_cases hlt : fp.rest.length < w.blockSize - w.input.length
  · have hle := w.length_input_le
    rw [appendData_of_lt hlt]
    simp only [todo, fill, Reader.opened, length_append, length_nil, if_true]
    rw [if_neg (by omega)]
    simp
  · exact absurd (by rw [appendData_of_le (Nat.le_of_not_lt hlt)]) hret

theorem todo_compress {z : Zlib} (heof : ¬ fp.eof) (hret : (w.appendData fp).2.2 = 0) :
    ((w.appendData fp).1.compress z).1.todo (w.appendData fp).2.1 < w.todo fp := by
  have hpos := w.blockSize_pos
  have hle := w.length_input_le
  rw [← opened_of_not_eof heof] at hret ⊢
  by_cases hlt : fp.rest.length < w.blockSize - w.input.length
  · rw [appendData_of_lt hlt] at hret
    simp only at hret
    omega
  · rw [appendData_of_le (Nat.le_of_not_lt hlt)]
    simp only [todo, input_compress, blockSize_compress, fill, Reader.opened, length_nil,
      length_drop, Bool.false_eq_true, if_false]
    rw [if_neg (Nat.ne_of_lt hpos)]
    by_cases hfull : w.input.length = w.blockSize
    · rw [if_pos hfull]
      omega
    · rw [if_neg hfull]
      omega

/-- The loop of `append`. -/
def appendLoop (z : Zlib) (w : CompressionWorker) (fp : Reader) : CompressionWorker × ℤ :=
  if fp.eof then (w, 0)
  else if (w.appendData fp).2.2 < 0 then ((w.appendData fp).1, -2)
  else if (w.appendData fp).2.2 = 0 then
    if ((w.appendData fp).1.compress z).2 ≠ 0 then (((w.appendData fp).1.compress z).1, -3)
    else appendLoop z ((w.appendData fp).1.compress z).1 (w.appendData fp).2.1
  else appendLoop z (w.appendData fp).1 (w.appendData fp).2.1
termination_by w.todo fp
decreasing_by
  · exact todo_compress ‹_› ‹_›
  · exact todo_appendData ‹_› ‹_›

/-- `append(filename)`, for a file with this content. -/
def append (z : Zlib) (w : CompressionWorker) (content : List UInt8) : CompressionWorker × ℤ :=
  w.appendLoop z (Reader.opened content)

/-- `append` for one file after the other. -/
def appendAll (z : Zlib) (w : CompressionWorker) : List (List UInt8) → CompressionWorker × List ℤ
  | [] => (w, [])
  | content :: files =>
      let r := appendAll z (w.append z content).1 files
      (r.1, (w.append z content).2 :: r.2)

/-- `~compression_worker()` -/
def destroy (z : Zlib) (w : CompressionWorker) : CompressionWorker := (w.compress z).1

end CompressionWorker

/-- A worker for these files, from its construction to its end: what it has written, and what
`append` has returned for each file. -/
def compressFiles (z : Zlib) (blksz clevel : ℤ) (files : List (List UInt8)) : List UInt8 × List ℤ :=
  let r := (CompressionWorker.new z blksz clevel).appendAll z files
  ((r.1.destroy z).written, r.2)

/-! ## The blocks -/

/-- A block as it is written. -/
def encodeBlock (z : Zlib) (level : ℕ) (block : List UInt8) : List UInt8 :=
  if level = 0 then block
  else ByteFile.u64 (z.deflate block level).length ++ z.deflate block level

/-- The contents of blocks that stand one behind the other, each behind its compressed size. -/
def decodeBlocks (z : Zlib) (bytes : List UInt8) : Option (List (List UInt8)) :=
  if bytes.isEmpty then some []
  else
    match ByteFile.readU64 bytes with
    | none => none
    | some sz =>
        match z.uncompress ((bytes.drop 8).take sz) with
        | none => none
        | some block => (decodeBlocks z (bytes.drop (8 + sz))).map (block :: ·)
termination_by bytes.length
decreasing_by
  have hpos : 0 < bytes.length := length_pos_iff.mpr fun h => by simp_all
  rw [length_drop]
  omega

/-- **Blocks are read back.** -/
theorem decodeBlocks_encode (z : Zlib) {level : ℕ} (hlow : 1 ≤ level) (hhigh : level ≤ 9)
    {blocks : List (List UInt8)} (hblocks : ∀ b ∈ blocks, b.length < 2 ^ 32) :
    decodeBlocks z (blocks.flatMap (encodeBlock z level)) = some blocks := by
  induction blocks with
  | nil => rw [flatMap_nil, decodeBlocks]; rfl
  | cons b blocks ih =>
      rw [forall_mem_cons] at hblocks
      have hsize : (z.deflate b level).length < 2 ^ 64 :=
        (z.length_deflate_le b level hlow hhigh).trans_lt (z.compressBound_lt _ hblocks.1)
      have hcons : (b :: blocks).flatMap (encodeBlock z level) =
          ByteFile.u64 (z.deflate b level).length ++ (z.deflate b level ++
            blocks.flatMap (encodeBlock z level)) := by
        rw [flatMap_cons, encodeBlock, if_neg (by omega), append_assoc]
      have hne : ¬ (ByteFile.u64 (z.deflate b level).length ++ (z.deflate b level ++
          blocks.flatMap (encodeBlock z level))).isEmpty := by
        simp [ByteFile.u64, ByteFile.u32]
      have hcontent : ((ByteFile.u64 (z.deflate b level).length ++ (z.deflate b level ++
          blocks.flatMap (encodeBlock z level))).drop 8).take (z.deflate b level).length =
            z.deflate b level := by
        rw [drop_left' (ByteFile.length_u64 _), take_left]
      have hrest : (ByteFile.u64 (z.deflate b level).length ++ (z.deflate b level ++
          blocks.flatMap (encodeBlock z level))).drop (8 + (z.deflate b level).length) =
            blocks.flatMap (encodeBlock z level) := by
        rw [← drop_drop, drop_left' (ByteFile.length_u64 _), drop_left]
      rw [hcons, decodeBlocks, if_neg hne, ByteFile.readU64_u64 hsize]
      simp only [hcontent, hrest, z.uncompress_deflate b level hlow hhigh, ih hblocks.2]
      rfl

/-! ## What the worker has done -/

namespace CompressionWorker

/-- After the bytes `data`: full blocks have been written, and the rest is in the buffer. -/
structure Holds (z : Zlib) (w : CompressionWorker) (data : List UInt8) : Prop where
  outputSize : w.outputSize = z.compressBound w.blockSize
  clevel_le : w.clevel ≤ 9
  length_input_lt : w.input.length < w.blockSize
  blocks : ∃ blocks : List (List UInt8), (∀ b ∈ blocks, b.length = w.blockSize) ∧
    blocks.flatten ++ w.input = data ∧ w.written = blocks.flatMap (encodeBlock z w.clevel)

variable {w : CompressionWorker} {z : Zlib}

/-- The buffer is written as a block. -/
theorem compress_eq (hsize : w.outputSize = z.compressBound w.blockSize) (hlevel : w.clevel ≤ 9)
    (hne : w.input ≠ []) : w.compress z = (w.flush (encodeBlock z w.clevel w.input), 0) := by
  rw [compress, if_neg (by simpa using hne), encodeBlock]
  by_cases hzero : w.clevel = 0
  · rw [if_pos hzero, if_pos hzero]
  · rw [if_neg hzero, if_neg hzero, hsize,
      z.compress2_of_le w.length_input_le (Nat.one_le_iff_ne_zero.mpr hzero) hlevel]

theorem holds_new (z : Zlib) (blksz clevel : ℤ) : (new z blksz clevel).Holds z [] where
  outputSize := rfl
  clevel_le := normalizeLevel_le clevel
  length_input_lt := (new z blksz clevel).blockSize_pos
  blocks := ⟨[], by simp, rfl, rfl⟩

variable {data : List UInt8}

/-- **One file**: from any state of the buffer, whether its end meets the end of a block or
not. -/
theorem Holds.appendLoop (h : w.Holds z data) (content : List UInt8) :
    ∃ w', w.appendLoop z (Reader.opened content) = (w', 0) ∧
      w'.Holds z (data ++ content) ∧ w'.blockSize = w.blockSize ∧ w'.clevel = w.clevel := by
  induction hlen : content.length using Nat.strong_induction_on generalizing w data content with
  | _ n ih =>
      obtain ⟨hsize, hlevel, hroom, blocks, hblocks, hdata, hwritten⟩ := h
      have hopened : ¬ (Reader.opened content).eof := by simp [Reader.opened]
      rw [CompressionWorker.appendLoop, if_neg hopened]
      by_cases hlt : content.length < w.blockSize - w.input.length
      · have hpos : ¬ ((w.blockSize - w.input.length - content.length : ℕ) : ℤ) < 0 := by omega
        have hne : ((w.blockSize - w.input.length - content.length : ℕ) : ℤ) ≠ 0 := by omega
        rw [appendData_of_lt hlt, if_neg hpos, if_neg hne, CompressionWorker.appendLoop, if_pos rfl]
        refine ⟨_, rfl, ⟨hsize, hlevel, ?_, blocks, hblocks, ?_, hwritten⟩, rfl, rfl⟩
        · change (w.input ++ content).length < w.blockSize
          rw [length_append]
          omega
        · change blocks.flatten ++ (w.input ++ content) = data ++ content
          rw [← hdata, append_assoc]
      · -- the buffer is full, and the file may go on behind it
        let remain := w.blockSize - w.input.length
        have hle : remain ≤ content.length := Nat.le_of_not_lt hlt
        let full := w.fill (content.take remain) (by rw [length_take]; omega)
        have hfull : full.input.length = w.blockSize := by
          change (w.input ++ content.take remain).length = w.blockSize
          rw [length_append, length_take_of_le hle]
          omega
        have hne : full.input ≠ [] := fun h => by
          rw [h] at hfull
          exact absurd hfull (Nat.ne_of_lt w.blockSize_pos)
        have hcompress : full.compress z = (full.flush (encodeBlock z w.clevel full.input), 0) :=
          compress_eq hsize hlevel hne
        rw [appendData_of_le hle, if_neg (lt_irrefl 0), if_pos rfl, hcompress, if_neg (by simp)]
        have hnext : (full.flush (encodeBlock z w.clevel full.input)).Holds z
            (data ++ content.take remain) := by
          refine ⟨hsize, hlevel, w.blockSize_pos, blocks ++ [full.input], ?_, ?_, ?_⟩
          · rw [forall_mem_append]
            exact ⟨hblocks, forall_mem_singleton.mpr hfull⟩
          · change (blocks ++ [w.input ++ content.take remain]).flatten ++ [] = _
            rw [append_nil, flatten_append, flatten_singleton, ← append_assoc, hdata]
          · change w.written ++ _ = _
            rw [hwritten, flatMap_append, flatMap_singleton]
            rfl
        obtain ⟨w', hw', hholds, hsame⟩ := ih (content.drop remain).length
          (by rw [length_drop]; omega) hnext (content.drop remain) rfl
        rw [append_assoc, take_append_drop] at hholds
        exact ⟨w', hw', hholds, hsame⟩

/-- **All files**, one behind the other. -/
theorem Holds.appendAll (h : w.Holds z data) (files : List (List UInt8)) :
    (∀ ret ∈ (w.appendAll z files).2, ret = 0) ∧
      (w.appendAll z files).1.Holds z (data ++ files.flatten) ∧
      (w.appendAll z files).1.blockSize = w.blockSize ∧
      (w.appendAll z files).1.clevel = w.clevel := by
  induction files generalizing w data with
  | nil =>
      refine ⟨by simp [CompressionWorker.appendAll], ?_, rfl, rfl⟩
      rwa [flatten_nil, append_nil]
  | cons content files ih =>
      obtain ⟨w', hw', hholds, hblock, hlevel⟩ := h.appendLoop content
      obtain ⟨hret, hall, hblock', hlevel'⟩ := ih hholds
      have happend : w.append z content = (w', 0) := hw'
      simp only [CompressionWorker.appendAll, happend]
      refine ⟨forall_mem_cons.mpr ⟨rfl, hret⟩, ?_, hblock'.trans hblock, hlevel'.trans hlevel⟩
      rwa [flatten_cons, ← append_assoc]

/-- **At the end** the rest is written too. -/
theorem Holds.destroy (h : w.Holds z data) :
    ∃ blocks : List (List UInt8), (w.destroy z).written = blocks.flatMap (encodeBlock z w.clevel) ∧
      blocks.flatten = data ∧ (∀ b ∈ blocks.dropLast, b.length = w.blockSize) ∧
      ∀ b ∈ blocks, 0 < b.length ∧ b.length ≤ w.blockSize := by
  obtain ⟨hsize, hlevel, hroom, blocks, hblocks, hdata, hwritten⟩ := h
  have hbounds : ∀ b ∈ blocks, 0 < b.length ∧ b.length ≤ w.blockSize := fun b hb => by
    rw [hblocks b hb]
    exact ⟨w.blockSize_pos, le_rfl⟩
  by_cases hempty : w.input = []
  · refine ⟨blocks, ?_, ?_, fun b hb => hblocks b (dropLast_subset _ hb), hbounds⟩
    · rw [CompressionWorker.destroy, compress, if_pos (by simp [hempty])]
      exact hwritten
    · rw [← hdata, hempty, append_nil]
  · refine ⟨blocks ++ [w.input], ?_, ?_, ?_, ?_⟩
    · rw [CompressionWorker.destroy, compress_eq hsize hlevel hempty]
      change w.written ++ _ = _
      rw [hwritten, flatMap_append, flatMap_singleton]
    · rw [flatten_append, flatten_singleton, hdata]
    · rw [dropLast_concat]
      exact hblocks
    · rw [forall_mem_append]
      exact ⟨hbounds, forall_mem_singleton.mpr ⟨length_pos_iff.mpr hempty, hroom.le⟩⟩

end CompressionWorker

/-- **The worker writes the files in blocks.** Every block but the last one is full, together they
hold the files one behind the other, and at level 0 nothing else is written. -/
theorem compressFiles_spec (z : Zlib) (blksz clevel : ℤ) (files : List (List UInt8)) :
    (∀ ret ∈ (compressFiles z blksz clevel files).2, ret = 0) ∧
    if normalizeLevel clevel = 0 then (compressFiles z blksz clevel files).1 = files.flatten
    else ∃ blocks, decodeBlocks z (compressFiles z blksz clevel files).1 = some blocks ∧
      blocks.flatten = files.flatten ∧
      (∀ b ∈ blocks.dropLast, b.length = normalizeBlockSize blksz) ∧
      ∀ b ∈ blocks, 0 < b.length ∧ b.length ≤ normalizeBlockSize blksz := by
  obtain ⟨hret, hholds, hblock, hlevel⟩ :=
    (CompressionWorker.holds_new z blksz clevel).appendAll files
  obtain ⟨blocks, hwritten, hdata, hfull, hbounds⟩ := hholds.destroy
  rw [hblock] at hfull hbounds
  rw [hlevel] at hwritten
  rw [nil_append] at hdata
  have hout : (compressFiles z blksz clevel files).1 =
      blocks.flatMap (encodeBlock z (normalizeLevel clevel)) := hwritten
  refine ⟨hret, ?_⟩
  rw [hout]
  split
  · next hzero =>
      have hplain : encodeBlock z (normalizeLevel clevel) = id := funext fun b => if_pos hzero
      rw [hplain, flatMap_id, hdata]
  · next hne =>
      have hsmall : ∀ b ∈ blocks, b.length < 2 ^ 32 := fun b hb =>
        ((hbounds b hb).2.trans (normalizeBlockSize_bounds blksz).2).trans_lt (by decide)
      exact ⟨blocks, decodeBlocks_encode z (Nat.one_le_iff_ne_zero.mpr hne)
        (normalizeLevel_le clevel) hsmall, hdata, hfull, hbounds⟩

end V2I.Ota
