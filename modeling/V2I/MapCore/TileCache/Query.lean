import V2I.Lib.Double
import V2I.MapCore.Maputils
import V2I.MapCore.TileCache

/-!
# V2I.MapCore.TileCache.Query

`query_loaded_blocks` and `query_unloaded_blocks`: which blocks of the grid a polygon meets.
The bounding box of the polygon gives a range of rows and columns; the first query looks at
every block of the range, the second walks `_blocks` beside it and leaves out what it finds.

A query has no result where an assertion fails or a number does not fit into an `int`.
-/

namespace V2I.TileCache

open V2I.MapCore Double

/-- What the queries read of `_mapinfo`: a grid whose block ids are `int`s. -/
structure Grid where
  xmin : ℚ
  ymin : ℚ
  blockWidth : ℚ
  blockHeight : ℚ
  rows : ℕ
  cols : ℕ
  width_pos : 0 < blockWidth
  height_pos : 0 < blockHeight
  rows_pos : 0 < rows
  cols_pos : 0 < cols
  fits : rows * cols < 2 ^ 31

theorem Grid.rows_fit (g : Grid) : g.rows < 2 ^ 31 :=
  (Nat.le_mul_of_pos_right _ g.cols_pos).trans_lt g.fits

theorem Grid.cols_fit (g : Grid) : g.cols < 2 ^ 31 :=
  (Nat.le_mul_of_pos_left _ g.rows_pos).trans_lt g.fits

/-- A number that fits into an `int`. -/
def asInt (n : ℤ) : Option ℤ := if -2 ^ 31 ≤ n ∧ n < 2 ^ 31 then some n else none

/-- The conversion of a `double` to `int`. -/
def toInt (x : ℚ) : Option ℤ := asInt (truncate x)

/-- The least and the greatest of some numbers. -/
def bounds : List ℚ → ℚ × ℚ
  | [] => (0, 0)
  | x :: xs => (xs.foldl min x, xs.foldl max x)

/-- Along one axis: the indices of the blocks from `lo` to `hi`. -/
def boundingIndices (origin size : ℚ) (count : ℕ) (lo hi : ℚ) : Option (ℤ × ℤ) := do
  let lo := if lo < origin then origin else lo
  let i1 ← toInt ((lo - origin) / size)
  let i2 ← (toInt ((hi - origin) / size)).bind fun i => asInt (i + 1)
  let i2 := if (count : ℤ) < i2 then (count : ℤ) else i2
  if i1 ≤ i2 then some (i1, i2) else none

/-- `get_bounding_blocks`: the columns and the rows. -/
def getBoundingBlocks (g : Grid) (polygon : List (Point ℚ)) : Option ((ℤ × ℤ) × (ℤ × ℤ)) := do
  let xs := bounds (polygon.map (·.x))
  let ys := bounds (polygon.map (·.y))
  let ix ← boundingIndices g.xmin g.blockWidth g.cols xs.1 xs.2
  let iy ← boundingIndices g.ymin g.blockHeight g.rows ys.1 ys.2
  some (ix, iy)

/-- `block_in_polygon(blkid, polygon)` -/
def blockInPolygon (g : Grid) (polygon : List (Point ℚ)) (blkid : ℕ) : Bool :=
  let x : ℕ := blkid % g.cols
  let y : ℕ := blkid / g.cols
  isPolygonsIntersected
    [⟨g.xmin + x * g.blockWidth, g.ymin + y * g.blockHeight⟩,
      ⟨g.xmin + (x + 1) * g.blockWidth, g.ymin + y * g.blockHeight⟩,
      ⟨g.xmin + (x + 1) * g.blockWidth, g.ymin + (y + 1) * g.blockHeight⟩,
      ⟨g.xmin + x * g.blockWidth, g.ymin + (y + 1) * g.blockHeight⟩] polygon

/-- `normalize_polygon(src, dst)` -/
def normalizePolygon (src : List (Point ℚ)) : List (Point ℚ) := if 0 < area src then reverse src else src

/-- The blocks from `start` to `stop` that are accepted. -/
def acceptedRow (accept : ℕ → Bool) (start stop : ℕ) : List ℕ :=
  (List.range' start (stop - start)).filter accept

/-- A row of `get_unloaded_blkidset_unlocked`: the walk over `_blocks` from the first key that
is not before `start`. -/
def unloadedRow (accept : ℕ → Bool) (stop : ℕ) : List ℕ → ℕ → List ℕ
  | [], start => acceptedRow accept start stop
  | pos :: rest, start =>
      if stop ≤ start then []
      else if stop ≤ pos then acceptedRow accept start stop
      else acceptedRow accept start pos ++ unloadedRow accept stop rest (pos + 1)

/-- The keys of `_blocks` in their order. -/
def blockIds (s : TilecacheImpl) : List ℕ := (s.blocks.keys.map UInt32.toNat).mergeSort (· ≤ ·)

/-- `get_loaded_blkidset_unlocked`: the ids inserted. -/
def getLoadedBlkidsetUnlocked (g : Grid) (x1 y1 x2 y2 : ℕ) (polygon : List (Point ℚ)) : List ℕ :=
  (List.range' y1 (y2 - y1)).flatMap fun j =>
    acceptedRow (blockInPolygon g polygon) (j * g.cols + x1) (j * g.cols + x2)

/-- `get_unloaded_blkidset_unlocked`: the ids inserted. -/
def getUnloadedBlkidsetUnlocked (g : Grid) (s : TilecacheImpl) (x1 y1 x2 y2 : ℕ)
    (polygon : List (Point ℚ)) : List ℕ :=
  (List.range' y1 (y2 - y1)).flatMap fun j =>
    unloadedRow (blockInPolygon g polygon) (j * g.cols + x2)
      ((blockIds s).dropWhile (· < j * g.cols + x1)) (j * g.cols + x1)

/-- `query_unloaded_blocks(pts, blkids)`: the code returned and the ids. The indices that
`get_bounding_blocks` finds are not negative. -/
def queryUnloadedBlocks (g : Grid) (s : TilecacheImpl) (pts : List (Point ℚ)) :
    Option (Except Error (List ℕ)) :=
  if pts.length < 3 then some (.error .einvalid)
  else
    let polygon := normalizePolygon pts
    (getBoundingBlocks g polygon).map fun (ix, iy) =>
      .ok (getUnloadedBlkidsetUnlocked g s ix.1.toNat iy.1.toNat ix.2.toNat iy.2.toNat polygon)

/-- `query_loaded_blocks(pts, blkids)`: `_blocks` is not looked at. -/
def queryLoadedBlocks (g : Grid) (pts : List (Point ℚ)) : Option (Except Error (List ℕ)) :=
  if pts.length < 3 then some (.error .einvalid)
  else
    let polygon := normalizePolygon pts
    (getBoundingBlocks g polygon).map fun (ix, iy) =>
      .ok (getLoadedBlkidsetUnlocked g ix.1.toNat iy.1.toNat ix.2.toNat iy.2.toNat polygon)

/-! ## The bounding box -/

theorem asInt_eq_some_iff {n m : ℤ} : asInt n = some m ↔ n = m ∧ -2 ^ 31 ≤ n ∧ n < 2 ^ 31 := by
  unfold asInt
  split_ifs with h
  · rw [Option.some.injEq]
    exact ⟨fun heq => ⟨heq, h⟩, And.left⟩
  · exact ⟨nofun, fun hm => absurd hm.2 h⟩

variable {x : ℚ}

theorem toInt_eq_some_iff {m : ℤ} :
    toInt x = some m ↔ truncate x = m ∧ -2 ^ 31 ≤ m ∧ m < 2 ^ 31 := by
  rw [toInt, asInt_eq_some_iff]
  constructor
  · rintro ⟨rfl, h⟩
    exact ⟨rfl, h⟩
  · rintro ⟨rfl, h⟩
    exact ⟨rfl, h⟩

theorem truncate_of_nonneg (h : 0 ≤ x) : truncate x = ⌊x⌋ := by
  rw [truncate, if_neg (not_lt.mpr h)]

theorem le_truncate_iff {n : ℤ} (hn : 0 < n) : n ≤ truncate x ↔ (n : ℚ) ≤ x := by
  unfold truncate
  split_ifs with hneg
  · constructor
    · intro h
      have := Int.ceil_le.mpr (show x ≤ ((0 : ℤ) : ℚ) by simpa using hneg.le)
      omega
    · intro h
      have : (0 : ℚ) < n := by exact_mod_cast hn
      linarith
  · exact Int.le_floor

theorem truncate_lt_iff {n : ℤ} (hn : 0 < n) : truncate x < n ↔ x < n := by
  rw [← not_le, le_truncate_iff hn, not_le]

/-- Truncation towards zero: what is above -2 becomes at least -1. -/
theorem neg_one_le_truncate_iff : -1 ≤ truncate x ↔ -2 < x := by
  unfold truncate
  split_ifs with hneg
  · rw [show -1 ≤ ⌈x⌉ ↔ -2 < ⌈x⌉ by omega, Int.lt_ceil]
    norm_num
  · have hx := not_lt.mp hneg
    have hfloor : 0 ≤ ⌊x⌋ := Int.floor_nonneg.mpr hx
    constructor
    · intro _
      linarith
    · intro _
      omega

/-- Where the bounding box may lie along an axis: it does not end two blocks or more before the
grid, does not start a block or more behind it, and does not end more than `int` blocks away. -/
def InReach (origin size : ℚ) (count : ℕ) (lo hi : ℚ) : Prop :=
  origin - 2 * size < hi ∧ hi < origin + (2 ^ 31 - 1) * size ∧ lo < origin + (count + 1) * size

/-- A range of indices that has every block of the axis between `lo` and `hi`. -/
structure Spans (origin size : ℚ) (count : ℕ) (lo hi : ℚ) (i : ℤ × ℤ) : Prop where
  nonneg : 0 ≤ i.1
  capped : i.2 ≤ count
  covers : ∀ k : ℕ, k < count → origin + k * size < hi → lo < origin + (k + 1) * size →
    i.1 ≤ k ∧ (k : ℤ) < i.2

variable {origin size lo : ℚ} {hi : ℚ} {count : ℕ}

/-- The three conditions, on the quotients. -/
theorem inReach_iff (hsize : 0 < size) :
    InReach origin size count lo hi ↔ -1 ≤ truncate ((hi - origin) / size) ∧
      truncate ((hi - origin) / size) < 2 ^ 31 - 1 ∧
      ⌊(max origin lo - origin) / size⌋ < (count : ℤ) + 1 := by
  have hbelow : origin - 2 * size < hi ↔ -1 ≤ truncate ((hi - origin) / size) := by
    rw [neg_one_le_truncate_iff, lt_div_iff₀ hsize]
    constructor <;> intro h <;> linarith
  have hfar : hi < origin + (2 ^ 31 - 1) * size ↔
      truncate ((hi - origin) / size) < 2 ^ 31 - 1 := by
    rw [truncate_lt_iff (by norm_num), div_lt_iff₀ hsize]
    push_cast
    constructor <;> intro h <;> linarith
  have hbehind : lo < origin + (count + 1) * size ↔
      ⌊(max origin lo - origin) / size⌋ < (count : ℤ) + 1 := by
    rw [Int.floor_lt, div_lt_iff₀ hsize, sub_lt_iff_lt_add', max_lt_iff]
    push_cast
    have : (0 : ℚ) ≤ count := Nat.cast_nonneg count
    exact ⟨fun h => ⟨by nlinarith, h⟩, And.right⟩
  rw [InReach, hbelow, hfar, hbehind]

theorem quotient_nonneg (hsize : 0 < size) : 0 ≤ (max origin lo - origin) / size :=
  div_nonneg (sub_nonneg.mpr (le_max_left _ _)) hsize.le

/-- The range of indices is not inverted, whatever is cut off before the grid. -/
theorem floor_le_truncate_add_one (hsize : 0 < size) (hle : lo ≤ hi)
    (h : -1 ≤ truncate ((hi - origin) / size)) :
    ⌊(max origin lo - origin) / size⌋ ≤ truncate ((hi - origin) / size) + 1 := by
  rcases le_total lo origin with hlo | hlo
  · rw [max_eq_left hlo, sub_self, zero_div, Int.floor_zero]
    omega
  · have hpos : 0 ≤ (lo - origin) / size := div_nonneg (sub_nonneg.mpr hlo) hsize.le
    have hq : (lo - origin) / size ≤ (hi - origin) / size :=
      div_le_div_of_nonneg_right (by linarith) hsize.le
    rw [max_eq_right hlo, truncate_of_nonneg (hpos.trans hq)]
    have := Int.floor_le_floor hq
    omega

theorem boundingIndices_eq_some_iff (hsize : 0 < size) (hcount : count < 2 ^ 31) (hle : lo ≤ hi)
    {i : ℤ × ℤ} :
    boundingIndices origin size count lo hi = some i ↔ InReach origin size count lo hi ∧
      i = (⌊(max origin lo - origin) / size⌋,
        min (count : ℤ) (truncate ((hi - origin) / size) + 1)) := by
  have hmax : (if lo < origin then origin else lo) = max origin lo := by
    split_ifs with h
    · exact (max_eq_left h.le).symm
    · exact (max_eq_right (not_lt.mp h)).symm
  have hmin : ∀ n : ℤ, (if (count : ℤ) < n then (count : ℤ) else n) = min (count : ℤ) n := by
    intro n
    split_ifs with h
    · exact (min_eq_left h.le).symm
    · exact (min_eq_right (not_lt.mp h)).symm
  have hq : 0 ≤ (max origin lo - origin) / size := quotient_nonneg hsize
  have hfloor : 0 ≤ ⌊(max origin lo - origin) / size⌋ := Int.floor_nonneg.mpr hq
  have hmono : -1 ≤ truncate ((hi - origin) / size) → _ :=
    floor_le_truncate_add_one hsize hle
  rw [inReach_iff hsize]
  simp only [boundingIndices, hmax, Option.bind_eq_bind, Option.bind_eq_some_iff,
    toInt_eq_some_iff, asInt_eq_some_iff, truncate_of_nonneg hq, hmin]
  generalize ⌊(max origin lo - origin) / size⌋ = i₁ at hfloor hmono ⊢
  generalize truncate ((hi - origin) / size) = i₂ at hmono ⊢
  constructor
  · rintro ⟨_, ⟨rfl, -, h₁⟩, _, ⟨_, ⟨rfl, -, -⟩, rfl, -, h₂⟩, h⟩
    split_ifs at h with hle
    cases h
    exact ⟨⟨by omega, by omega, by omega⟩, rfl⟩
  · rintro ⟨⟨h₂, h₃, h₁⟩, rfl⟩
    have := hmono h₂
    refine ⟨i₁, ⟨rfl, by omega, by omega⟩, i₂ + 1, ⟨i₂, ⟨rfl, by omega, by omega⟩, rfl, by omega,
      by omega⟩, ?_⟩
    rw [if_pos (by omega)]

theorem boundingIndices_spans (hsize : 0 < size) (hcount : count < 2 ^ 31) (hle : lo ≤ hi)
    {i : ℤ × ℤ} (h : boundingIndices origin size count lo hi = some i) :
    Spans origin size count lo hi i := by
  obtain ⟨-, rfl⟩ := (boundingIndices_eq_some_iff hsize hcount hle).mp h
  refine ⟨?_, min_le_left _ _, fun k hk hhi hlo => ⟨?_, ?_⟩⟩
  · exact Int.floor_nonneg.mpr (quotient_nonneg hsize)
  · rw [← Int.lt_add_one_iff, Int.floor_lt, div_lt_iff₀ hsize, sub_lt_iff_lt_add', max_lt_iff]
    push_cast
    have : (0 : ℚ) ≤ k := Nat.cast_nonneg k
    exact ⟨by nlinarith, hlo⟩
  · have hq : (k : ℚ) < (hi - origin) / size := by
      rw [lt_div_iff₀ hsize]
      linarith
    have hpos : 0 ≤ (hi - origin) / size := (Nat.cast_nonneg k).trans hq.le
    rw [truncate_of_nonneg hpos, lt_min_iff]
    have hfloor : (k : ℤ) ≤ ⌊(hi - origin) / size⌋ := Int.le_floor.mpr (by exact_mod_cast hq.le)
    omega

theorem bounds_le (xs : List ℚ) : (bounds xs).1 ≤ (bounds xs).2 := by
  cases xs with
  | nil => exact le_rfl
  | cons x xs =>
      have hmin : ∀ (l : List ℚ) (a b : ℚ), a ≤ b → l.foldl min a ≤ l.foldl max b := by
        intro l
        induction l with
        | nil => exact fun _ _ h => h
        | cons y l ih => exact fun a b h => ih _ _ ((min_le_left a y).trans (h.trans (le_max_left b y)))
      exact hmin xs x x le_rfl

/-! ## One row -/

variable {accept : ℕ → Bool} {id start stop : ℕ}

theorem mem_acceptedRow :
    id ∈ acceptedRow accept start stop ↔ start ≤ id ∧ id < stop ∧ accept id = true := by
  rw [acceptedRow, List.mem_filter, List.mem_range'_1]
  constructor
  · rintro ⟨h, haccept⟩
    exact ⟨h.1, by omega, haccept⟩
  · rintro ⟨h₁, h₂, haccept⟩
    exact ⟨by omega, haccept⟩

/-- `lower_bound(a)`: the keys from the first one that is not before `a`. -/
theorem mem_lowerBound {keys : List ℕ} (hsorted : keys.Pairwise (· < ·)) {a k : ℕ} :
    k ∈ keys.dropWhile (· < a) ↔ k ∈ keys ∧ a ≤ k := by
  induction keys with
  | nil => simp
  | cons pos rest ih =>
      obtain ⟨hpos, hrest⟩ := List.pairwise_cons.mp hsorted
      by_cases h : pos < a
      · rw [List.dropWhile_cons_of_pos (by simpa using h), ih hrest, List.mem_cons]
        constructor
        · rintro ⟨hk, hle⟩
          exact ⟨.inr hk, hle⟩
        · rintro ⟨rfl | hk, hle⟩
          · omega
          · exact ⟨hk, hle⟩
      · rw [List.dropWhile_cons_of_neg (by simpa using h)]
        refine (and_iff_left_of_imp fun hk => ?_).symm
        rcases List.mem_cons.mp hk with rfl | hk
        · omega
        · have := hpos k hk
          omega

theorem acceptedRow_split {pos : ℕ} (hstart : start ≤ pos) (hstop : pos < stop) :
    acceptedRow accept start stop = acceptedRow accept start pos ++
      ([pos].filter accept ++ acceptedRow accept (pos + 1) stop) := by
  have hsplit : List.range' start (stop - start) =
      List.range' start (pos - start) ++ pos :: List.range' (pos + 1) (stop - (pos + 1)) := by
    rw [show stop - start = (pos - start) + ((stop - (pos + 1)) + 1) by omega,
      ← List.range'_append_1, List.range'_succ, Nat.add_sub_cancel' hstart]
  simp only [acceptedRow]
  rw [hsplit, ← List.singleton_append, List.filter_append, List.filter_append]

theorem acceptedRow_congr {accept' : ℕ → Bool}
    (h : ∀ id, start ≤ id → id < stop → accept id = accept' id) :
    acceptedRow accept start stop = acceptedRow accept' start stop := by
  refine List.filter_congr fun id hid => ?_
  obtain ⟨hle, hlt⟩ := List.mem_range'_1.mp hid
  exact h id hle (by omega)

/-- **The walk over one row** is the plain scan of the row for the blocks that are not loaded. -/
theorem unloadedRow_eq {keys : List ℕ} (hsorted : keys.Pairwise (· < ·))
    (hstart : ∀ k ∈ keys, start ≤ k) :
    unloadedRow accept stop keys start =
      acceptedRow (fun id => accept id && decide (id ∉ keys)) start stop := by
  induction keys generalizing start with
  | nil =>
      rw [unloadedRow]
      exact acceptedRow_congr fun id _ _ => by simp
  | cons pos rest ih =>
      obtain ⟨hpos, hrest⟩ := List.pairwise_cons.mp hsorted
      obtain ⟨hle, -⟩ := List.forall_mem_cons.mp hstart
      -- before `pos` nothing is loaded
      have hbefore : ∀ id < pos, id ∉ pos :: rest := by
        intro id hid hmem
        rcases List.mem_cons.mp hmem with rfl | hmem
        · omega
        · have := hpos id hmem
          omega
      rw [unloadedRow]
      split_ifs with hend hbehind
      · rw [acceptedRow, Nat.sub_eq_zero_of_le hend]
        rfl
      · exact acceptedRow_congr fun id _ hid => by simp [hbefore id (by omega)]
      · rw [acceptedRow_split hle (not_le.mp hbehind), ih hrest hpos]
        have hfirst : acceptedRow accept start pos =
            acceptedRow (fun id => accept id && decide (id ∉ pos :: rest)) start pos :=
          acceptedRow_congr fun id _ hid => by simp [hbefore id hid]
        have hpos' : [pos].filter (fun id => accept id && decide (id ∉ pos :: rest)) = [] := by
          simp
        have hafter : acceptedRow (fun id => accept id && decide (id ∉ rest)) (pos + 1) stop =
            acceptedRow (fun id => accept id && decide (id ∉ pos :: rest)) (pos + 1) stop :=
          acceptedRow_congr fun id hid _ => by simp [show id ≠ pos by omega]
        rw [hfirst, hpos', hafter, List.nil_append]

theorem blockIds_sorted (s : TilecacheImpl) : (blockIds s).Pairwise (· < ·) := by
  have hle : (blockIds s).Pairwise (· ≤ ·) := by
    exact List.pairwise_mergeSort' (· ≤ ·) (s.blocks.keys.map UInt32.toNat)
  have hnodup : (blockIds s).Nodup := by
    refine (List.mergeSort_perm _ _).nodup_iff.mpr ?_
    exact s.blocks.nodup.map fun a b h => UInt32.toNat_inj.mp h
  exact hle.imp₂ (fun a b hab hne => lt_of_le_of_ne hab hne) hnodup

variable {s : TilecacheImpl}

theorem mem_blockIds : id ∈ blockIds s ↔ ∃ k ∈ s.blocks.keys, k.toNat = id := by
  rw [blockIds, List.mem_mergeSort, List.mem_map]

/-! ## The queries -/

variable {x1 x2 : ℕ}

theorem row_iff {cols j : ℕ} (hx2 : x2 ≤ cols) :
    (j * cols + x1 ≤ id ∧ id < j * cols + x2) ↔
      j = id / cols ∧ x1 ≤ id % cols ∧ id % cols < x2 := by
  have hsplit := Nat.div_add_mod' id cols
  constructor
  · rintro ⟨h₁, h₂⟩
    have hj : id / cols = j := by
      refine Nat.div_eq_of_lt_le (by omega) ?_
      rw [Nat.succ_mul]
      omega
    rw [hj] at hsplit
    exact ⟨hj.symm, by omega, by omega⟩
  · rintro ⟨rfl, h₁, h₂⟩
    exact ⟨by omega, by omega⟩

/-- The block is in the rows and columns of the range. -/
def InRange (g : Grid) (x1 y1 x2 y2 id : ℕ) : Prop :=
  (y1 ≤ id / g.cols ∧ id / g.cols < y2) ∧ x1 ≤ id % g.cols ∧ id % g.cols < x2

variable {y1 y2 : ℕ}

theorem mem_range'_sub {j : ℕ} : j ∈ List.range' y1 (y2 - y1) ↔ y1 ≤ j ∧ j < y2 := by
  rw [List.mem_range'_1]
  omega

variable {polygon : List (Point ℚ)} {g : Grid}

theorem mem_getLoadedBlkidsetUnlocked (hx2 : x2 ≤ g.cols) :
    id ∈ getLoadedBlkidsetUnlocked g x1 y1 x2 y2 polygon ↔
      InRange g x1 y1 x2 y2 id ∧ blockInPolygon g polygon id = true := by
  simp only [getLoadedBlkidsetUnlocked, List.mem_flatMap, mem_acceptedRow, mem_range'_sub,
    ← and_assoc, InRange]
  constructor
  · rintro ⟨j, ⟨⟨hj, hj'⟩, h⟩, haccept⟩
    obtain ⟨rfl, hx⟩ := (row_iff hx2).mp ⟨hj', h⟩
    exact ⟨⟨⟨hj, hx.1⟩, hx.2⟩, haccept⟩
  · rintro ⟨⟨⟨hy, hx⟩, hx'⟩, haccept⟩
    have hrow := (row_iff hx2).mpr ⟨rfl, hx, hx'⟩
    exact ⟨id / g.cols, ⟨⟨hy, hrow.1⟩, hrow.2⟩, haccept⟩

/-- The plain scan of the range: every block is tested on its own. -/
def scanUnloaded (g : Grid) (s : TilecacheImpl) (x1 y1 x2 y2 : ℕ) (polygon : List (Point ℚ)) :
    List ℕ :=
  (List.range' y1 (y2 - y1)).flatMap fun j =>
    ((List.range' x1 (x2 - x1)).map fun i => j * g.cols + i).filter fun id =>
      blockInPolygon g polygon id && decide (id ∉ blockIds s)

theorem mem_scanUnloaded : id ∈ scanUnloaded g s x1 y1 x2 y2 polygon ↔
      (∃ i j, (x1 ≤ i ∧ i < x2) ∧ (y1 ≤ j ∧ j < y2) ∧ id = j * g.cols + i) ∧
        blockInPolygon g polygon id = true ∧ id ∉ blockIds s := by
  simp only [scanUnloaded, List.mem_flatMap, List.mem_filter, List.mem_map, mem_range'_sub,
    Bool.and_eq_true, decide_eq_true_iff]
  constructor
  · rintro ⟨j, hj, ⟨i, hi, rfl⟩, h⟩
    exact ⟨⟨i, j, hi, hj, rfl⟩, h⟩
  · rintro ⟨⟨i, j, hi, hj, rfl⟩, h⟩
    exact ⟨j, hj, ⟨i, hi, rfl⟩, h⟩

theorem acceptedRow_add (accept : ℕ → Bool) (base x1 x2 : ℕ) :
    acceptedRow accept (base + x1) (base + x2) =
      ((List.range' x1 (x2 - x1)).map fun i => base + i).filter accept := by
  rw [acceptedRow, List.map_add_range', Nat.add_sub_add_left]

theorem getUnloadedBlkidsetUnlocked_eq (g : Grid) (s : TilecacheImpl) (x1 y1 x2 y2 : ℕ)
    (polygon : List (Point ℚ)) :
    getUnloadedBlkidsetUnlocked g s x1 y1 x2 y2 polygon =
      scanUnloaded g s x1 y1 x2 y2 polygon := by
  refine List.flatMap_congr fun j _ => ?_
  have hsorted := blockIds_sorted s
  rw [← acceptedRow_add, unloadedRow_eq (hsorted.sublist (List.dropWhile_sublist _))
    fun k hk => ((mem_lowerBound hsorted).mp hk).2]
  refine acceptedRow_congr fun id hid _ => ?_
  simp only [mem_lowerBound hsorted, hid, and_true]

/-- **`get_unloaded_blkidset_unlocked`**: the scan that skips along `_blocks` inserts what the
plain scan inserts: the blocks of the range that are not loaded and that the polygon meets. -/
theorem unloaded_blkidset_eq_scan (g : Grid) (s : TilecacheImpl) (x1 y1 x2 y2 : ℕ)
    (polygon : List (Point ℚ)) :
    getUnloadedBlkidsetUnlocked g s x1 y1 x2 y2 polygon = scanUnloaded g s x1 y1 x2 y2 polygon ∧
      ∀ id, id ∈ getUnloadedBlkidsetUnlocked g s x1 y1 x2 y2 polygon ↔
        (∃ i j, (x1 ≤ i ∧ i < x2) ∧ (y1 ≤ j ∧ j < y2) ∧ id = j * g.cols + i) ∧
          (∀ k ∈ s.blocks.keys, k.toNat ≠ id) ∧ blockInPolygon g polygon id = true := by
  have heq := getUnloadedBlkidsetUnlocked_eq g s x1 y1 x2 y2 polygon
  refine ⟨heq, fun id => ?_⟩
  have hloaded : id ∉ blockIds s ↔ ∀ k ∈ s.blocks.keys, k.toNat ≠ id := by
    rw [mem_blockIds]
    exact ⟨fun h k hk hid => h ⟨k, hk, hid⟩, fun h ⟨k, hk, hid⟩ => h k hk hid⟩
  rw [heq, mem_scanUnloaded, ← hloaded, and_comm (a := id ∉ _)]

theorem mem_getUnloadedBlkidsetUnlocked (hx2 : x2 ≤ g.cols) :
    id ∈ getUnloadedBlkidsetUnlocked g s x1 y1 x2 y2 polygon ↔
      InRange g x1 y1 x2 y2 id ∧ blockInPolygon g polygon id = true ∧ id ∉ blockIds s := by
  rw [getUnloadedBlkidsetUnlocked_eq, mem_scanUnloaded]
  refine and_congr_left fun _ => ?_
  have hcols := Nat.div_add_mod' id g.cols
  constructor
  · rintro ⟨i, j, hi, hj, rfl⟩
    have hrow : j * g.cols + x1 ≤ j * g.cols + i ∧ j * g.cols + i < j * g.cols + x2 := by omega
    obtain ⟨hj', hi'⟩ := (row_iff hx2).mp hrow
    exact ⟨hj' ▸ hj, hi'⟩
  · rintro ⟨hj, hi⟩
    exact ⟨id % g.cols, id / g.cols, hi, hj, hcols.symm⟩

/-- The block and the bounding box of the polygon have more in common than an edge or a
corner. -/
def Overlaps (g : Grid) (polygon : List (Point ℚ)) (id : ℕ) : Prop :=
  (g.xmin + (id % g.cols : ℕ) * g.blockWidth < (bounds (polygon.map (·.x))).2 ∧
    (bounds (polygon.map (·.x))).1 < g.xmin + ((id % g.cols : ℕ) + 1) * g.blockWidth) ∧
  g.ymin + (id / g.cols : ℕ) * g.blockHeight < (bounds (polygon.map (·.y))).2 ∧
    (bounds (polygon.map (·.y))).1 < g.ymin + ((id / g.cols : ℕ) + 1) * g.blockHeight

/-- The blocks of the grid that the polygon meets. -/
def Meets (g : Grid) (polygon : List (Point ℚ)) (id : ℕ) : Prop :=
  id < g.rows * g.cols ∧ blockInPolygon g polygon id = true ∧ Overlaps g polygon id

/-- The bounding box is where `get_bounding_blocks` can deal with it. -/
def BoxInReach (g : Grid) (polygon : List (Point ℚ)) : Prop :=
  InReach g.xmin g.blockWidth g.cols (bounds (polygon.map (·.x))).1
      (bounds (polygon.map (·.x))).2 ∧
    InReach g.ymin g.blockHeight g.rows (bounds (polygon.map (·.y))).1
      (bounds (polygon.map (·.y))).2

theorem getBoundingBlocks_isSome : (getBoundingBlocks g polygon).isSome ↔ BoxInReach g polygon := by
  simp only [getBoundingBlocks, Option.isSome_iff_exists, Option.bind_eq_bind,
    Option.bind_eq_some_iff, boundingIndices_eq_some_iff g.width_pos g.cols_fit (bounds_le _),
    boundingIndices_eq_some_iff g.height_pos g.rows_fit (bounds_le _), BoxInReach]
  constructor
  · rintro ⟨_, _, ⟨hx, -⟩, _, ⟨hy, -⟩, -⟩
    exact ⟨hx, hy⟩
  · rintro ⟨hx, hy⟩
    exact ⟨_, _, ⟨hx, rfl⟩, _, ⟨hy, rfl⟩, rfl⟩

/-- A block that the polygon meets is in the range of its bounding box. -/
theorem getBoundingBlocks_covers {ix iy : ℤ × ℤ} (h : getBoundingBlocks g polygon = some (ix, iy)) :
    ix.2.toNat ≤ g.cols ∧
      ∀ id, Meets g polygon id → InRange g ix.1.toNat iy.1.toNat ix.2.toNat iy.2.toNat id := by
  simp only [getBoundingBlocks, Option.bind_eq_bind, Option.bind_eq_some_iff] at h
  obtain ⟨_, hx, _, hy, heq⟩ := h
  cases heq
  have hsx := boundingIndices_spans g.width_pos g.cols_fit (bounds_le _) hx
  have hsy := boundingIndices_spans g.height_pos g.rows_fit (bounds_le _) hy
  refine ⟨by have := hsx.capped; omega, ?_⟩
  rintro id ⟨hid, -, hox, hoy⟩
  have hrow : id / g.cols < g.rows := Nat.div_lt_of_lt_mul (by rwa [Nat.mul_comm])
  have hcol : id % g.cols < g.cols := Nat.mod_lt _ g.cols_pos
  obtain ⟨hx₁, hx₂⟩ := hsx.covers _ hcol hox.1 hox.2
  obtain ⟨hy₁, hy₂⟩ := hsy.covers _ hrow hoy.1 hoy.2
  have := hsx.nonneg
  have := hsy.nonneg
  exact ⟨⟨by omega, by omega⟩, by omega, by omega⟩

/-- Both queries return, and share out the blocks the polygon meets: the loaded ones to the
first, the others to the second. -/
def SplitBlocks (g : Grid) (s : TilecacheImpl) (pts : List (Point ℚ)) : Prop :=
  ∃ loaded unloaded, queryLoadedBlocks g pts = some (.ok loaded) ∧
    queryUnloadedBlocks g s pts = some (.ok unloaded) ∧
    ∀ id, Meets g (normalizePolygon pts) id →
      (id ∈ blockIds s → id ∈ loaded ∧ id ∉ unloaded) ∧
      (id ∉ blockIds s → id ∉ loaded ∧ id ∈ unloaded)

/-- **The two queries** return and share out the blocks the polygon meets iff its bounding box
is in reach and every block it meets is loaded. -/
theorem queries_split_iff (g : Grid) (s : TilecacheImpl) (pts : List (Point ℚ))
    (hpts : 3 ≤ pts.length) :
    SplitBlocks g s pts ↔ BoxInReach g (normalizePolygon pts) ∧
      ∀ id, Meets g (normalizePolygon pts) id → id ∈ blockIds s := by
  have hshort : ¬ pts.length < 3 := not_lt.mpr hpts
  rw [← getBoundingBlocks_isSome]
  unfold SplitBlocks queryLoadedBlocks queryUnloadedBlocks
  simp only [if_neg hshort]
  cases hbox : getBoundingBlocks g (normalizePolygon pts) with
  | none => simp
  | some r =>
      obtain ⟨ix, iy⟩ := r
      obtain ⟨hcols, hcovers⟩ := getBoundingBlocks_covers hbox
      simp only [Option.map_some, Option.some.injEq, Except.ok.injEq, exists_and_left,
        exists_eq_left', Option.isSome_some, true_and]
      simp only [mem_getLoadedBlkidsetUnlocked hcols, mem_getUnloadedBlkidsetUnlocked hcols]
      refine forall_congr' fun id => imp_congr_right fun hmeets => ?_
      have hrange := hcovers id hmeets
      have haccept := hmeets.2.1
      simp only [hrange, haccept, true_and, and_true, not_true_eq_false, false_and, imp_false,
        not_not]
      tauto

/-- Two rows of two blocks of ten by ten. -/
def fourBlocks : Grid where
  xmin := 0
  ymin := 0
  blockWidth := 10
  blockHeight := 10
  rows := 2
  cols := 2
  width_pos := by norm_num
  height_pos := by norm_num
  rows_pos := by norm_num
  cols_pos := by norm_num
  fits := by norm_num

/-- A triangle in the middle of the first block. -/
def innerTriangle : List (Point ℚ) := [⟨2, 2⟩, ⟨8, 2⟩, ⟨2, 8⟩]

/-- A triangle three blocks before the grid. -/
def outerTriangle : List (Point ℚ) := [⟨-38, 2⟩, ⟨-32, 2⟩, ⟨-38, 8⟩]

theorem queries_split_iff_inner : 3 ≤ innerTriangle.length ∧
    (SplitBlocks fourBlocks .new innerTriangle ↔
      BoxInReach fourBlocks (normalizePolygon innerTriangle) ∧
        ∀ id, Meets fourBlocks (normalizePolygon innerTriangle) id →
          id ∈ blockIds .new) :=
  ⟨by decide, queries_split_iff fourBlocks .new innerTriangle (by decide)⟩

/-- With no block loaded, `query_loaded_blocks` reports the first block, and before the grid
an assertion fails. -/
theorem unloaded_block_reported_loaded :
    (3 ≤ innerTriangle.length ∧ ¬ SplitBlocks fourBlocks .new innerTriangle) ∧
      3 ≤ outerTriangle.length ∧ queryLoadedBlocks fourBlocks outerTriangle = none := by
  refine ⟨⟨by decide, ?_⟩, by decide, by decide +kernel⟩
  rintro ⟨loaded, unloaded, hloaded, -, hsplit⟩
  have hmeets : Meets fourBlocks (normalizePolygon innerTriangle) 0 := by
    refine ⟨by decide, by decide +kernel, ⟨?_, ?_⟩, ?_, ?_⟩ <;> decide +kernel
  have hquery : queryLoadedBlocks fourBlocks innerTriangle = some (.ok [0]) := by
    decide +kernel
  have hzero : 0 ∉ blockIds .new := by
    rw [mem_blockIds]
    rintro ⟨k, hk, -⟩
    cases hk
  rw [hquery] at hloaded
  cases hloaded
  exact ((hsplit 0 hmeets).2 hzero).1 List.mem_cons_self

end V2I.TileCache
