import Mathlib.Data.Finset.Sort
import V2I.Lib.Lists

/-!
# V2I.MapCore.StoredMap

The render map that the server stores: `hdrmap_file_rendermap_v1`, a grid of blocks with the
road segments, lane sections and road objects in each of them. An object that straddles blocks
is in the tables of all of them, and a lane section or a road object lists these blocks.

`get_block_dependencies` of `rendermap_impl` collects these lists. It takes the block id 0 for
no block and leaves it out.

Junctions are not modelled, and neither is the loading of a tile that is extracted (`fix_ref`).
-/

namespace V2I.StoredMap

/-! `hdrmap_roadobject_type` -/

def robjtypeUnknown : ℕ := 0

def robjtypeUnclassfied : ℕ := 100

def robjtypeSignalLight : ℕ := 101

def robjtypeRsd : ℕ := 102

def robjtypeArrow : ℕ := 103

def robjtypeJunconver : ℕ := 104

def robjtypeSigboard : ℕ := 105

def robjtypeClassified : ℕ := 106

def robjtypeMax : ℕ := 107

/-- `hdrmap_file_roadseg_v1`, with the sizes of its reference line and its super elevation. -/
structure Roadseg where
  id : UInt32
  refline : ℕ
  superelev : ℕ
  deriving DecidableEq

/-- `hdrmap_file_lanesec_v1` in a map of `n` blocks. -/
structure Lanesec (n : ℕ) where
  id : UInt32
  sizeInbytes : ℕ
  referredBlockids : List (Fin n)
  deriving DecidableEq

/-- `hdrmap_file_road_object_v1` -/
structure RoadObject (n : ℕ) where
  id : UInt32
  type : ℕ
  sizeInbytes : ℕ
  referredBlockids : List (Fin n)
  deriving DecidableEq

/-- `hdrmap_file_blockinfo_v1`, without its junctions. -/
structure Block (n : ℕ) where
  roadSegs : List Roadseg
  laneSecs : List (Lanesec n)
  roadObjs : List (RoadObject n)

/-- `hdrmap_file_rendermap_v1`: its blocks row by row. The tables of a block are in the order of
the ids, an id stands for one object, and the blocks that an object refers to are those that
have it. -/
structure Rendermap (rows cols : ℕ) where
  block : Fin (rows * cols) → Block (rows * cols)
  /-- the number of blocks is an `int` -/
  fits : rows * cols < 2 ^ 31
  roadSegs_sorted : ∀ b, (block b).roadSegs.Pairwise (·.id < ·.id)
  laneSecs_sorted : ∀ b, (block b).laneSecs.Pairwise (·.id < ·.id)
  roadObjs_sorted : ∀ b, (block b).roadObjs.Pairwise (·.id < ·.id)
  roadSegs_unique : ∀ b b', ∀ r ∈ (block b).roadSegs, ∀ r' ∈ (block b').roadSegs,
    r.id = r'.id → r = r'
  laneSecs_unique : ∀ b b', ∀ ls ∈ (block b).laneSecs, ∀ ls' ∈ (block b').laneSecs,
    ls.id = ls'.id → ls = ls'
  roadObjs_unique : ∀ b b', ∀ ro ∈ (block b).roadObjs, ∀ ro' ∈ (block b').roadObjs,
    ro.id = ro'.id → ro = ro'
  laneSecs_referred : ∀ b, ∀ ls ∈ (block b).laneSecs, ∀ b',
    b' ∈ ls.referredBlockids ↔ ls ∈ (block b').laneSecs
  roadObjs_referred : ∀ b, ∀ ro ∈ (block b).roadObjs, ∀ b',
    b' ∈ ro.referredBlockids ↔ ro ∈ (block b').roadObjs

variable {rows cols : ℕ}

/-! ## Dependencies -/

/-- The loop over the blocks that the objects of a table refer to: all but the block itself. -/
def addReferred {n : ℕ} (blkid : Fin n) (referred : List (List (Fin n))) (output : Finset (Fin n)) :
    Finset (Fin n) :=
  referred.flatten.foldl (fun output id => if blkid ≠ id then insert id output else output) output

namespace Rendermap

variable (map : Rendermap rows cols)

/-- `lanesec_dependencies(blkid, output)` -/
def lanesecDependencies (output : Finset (Fin (rows * cols))) (blkid : Fin (rows * cols)) :
    Finset (Fin (rows * cols)) :=
  addReferred blkid ((map.block blkid).laneSecs.map (·.referredBlockids)) output

/-- `roadobj_dependencies(blkid, output)` -/
def roadobjDependencies (output : Finset (Fin (rows * cols))) (blkid : Fin (rows * cols)) :
    Finset (Fin (rows * cols)) :=
  addReferred blkid ((map.block blkid).roadObjs.map (·.referredBlockids)) output

/-- `get_block_dependencies(input, output)`: the output; the call always returns 0. -/
def getBlockDependencies (input : Finset (Fin (rows * cols))) : Finset (Fin (rows * cols)) :=
  let ids := (input.sort (· ≤ ·)).filter fun blkid => blkid.val ≠ 0
  ids.foldl map.roadobjDependencies (ids.foldl map.lanesecDependencies ∅)

/-- Another block that has a lane section or a road object of the block. -/
def Shares (b b' : Fin (rows * cols)) : Prop :=
  b ≠ b' ∧ ((∃ ls ∈ (map.block b).laneSecs, ls ∈ (map.block b').laneSecs) ∨
    ∃ ro ∈ (map.block b).roadObjs, ro ∈ (map.block b').roadObjs)

/-- A call finds the blocks that share something with a block of the input. -/
def FindsSharing (input : Finset (Fin (rows * cols))) : Prop :=
  ∀ id, id ∈ map.getBlockDependencies input ↔ ∃ b ∈ input, map.Shares b id

/-- What block 0 shares, another block of the input shares as well. -/
def ZeroIsCovered (input : Finset (Fin (rows * cols))) : Prop :=
  ∀ b ∈ input, b.val = 0 → ∀ id, map.Shares b id → ∃ b' ∈ input, b'.val ≠ 0 ∧ map.Shares b' id

variable {map}

theorem mem_addReferred {n : ℕ} {blkid id : Fin n} {referred : List (List (Fin n))}
    {output : Finset (Fin n)} : id ∈ addReferred blkid referred output ↔
      id ∈ output ∨ (blkid ≠ id ∧ ∃ ids ∈ referred, id ∈ ids) := by
  rw [addReferred, ← List.mem_flatten]
  induction referred.flatten generalizing output with
  | nil => simp
  | cons id' ids ih =>
      rw [List.foldl_cons, ih, List.mem_cons]
      by_cases h : blkid = id'
      · rw [if_neg (not_not.mpr h)]
        subst h
        constructor
        · rintro (hout | ⟨hne, hmem⟩)
          · exact .inl hout
          · exact .inr ⟨hne, .inr hmem⟩
        · rintro (hout | ⟨hne, rfl | hmem⟩)
          · exact .inl hout
          · exact absurd rfl hne
          · exact .inr ⟨hne, hmem⟩
      · rw [if_pos h, Finset.mem_insert]
        constructor
        · rintro ((rfl | hout) | ⟨hne, hmem⟩)
          · exact .inr ⟨h, .inl rfl⟩
          · exact .inl hout
          · exact .inr ⟨hne, .inr hmem⟩
        · rintro (hout | ⟨hne, rfl | hmem⟩)
          · exact .inl (.inr hout)
          · exact .inl (.inl rfl)
          · exact .inr ⟨hne, hmem⟩

variable {id : Fin (rows * cols)} {output : Finset (Fin (rows * cols))} {blkid : Fin (rows * cols)}

theorem mem_lanesecDependencies :
    id ∈ map.lanesecDependencies output blkid ↔ id ∈ output ∨
      (blkid ≠ id ∧ ∃ ls ∈ (map.block blkid).laneSecs, ls ∈ (map.block id).laneSecs) := by
  rw [lanesecDependencies, mem_addReferred]
  simp only [List.mem_map, exists_exists_and_eq_and]
  refine or_congr_right (and_congr_right fun _ => exists_congr fun ls => and_congr_right ?_)
  exact fun hls => map.laneSecs_referred blkid ls hls id

theorem mem_roadobjDependencies :
    id ∈ map.roadobjDependencies output blkid ↔ id ∈ output ∨
      (blkid ≠ id ∧ ∃ ro ∈ (map.block blkid).roadObjs, ro ∈ (map.block id).roadObjs) := by
  rw [roadobjDependencies, mem_addReferred]
  simp only [List.mem_map, exists_exists_and_eq_and]
  refine or_congr_right (and_congr_right fun _ => exists_congr fun ro => and_congr_right ?_)
  exact fun hro => map.roadObjs_referred blkid ro hro id

/-- The blocks found are those that share something with a block of the input other than 0. -/
theorem mem_getBlockDependencies {input : Finset (Fin (rows * cols))} :
    id ∈ map.getBlockDependencies input ↔ ∃ b ∈ input, b.val ≠ 0 ∧ map.Shares b id := by
  rw [getBlockDependencies, mem_foldl map.roadobjDependencies fun _ _ _ => mem_roadobjDependencies,
    mem_foldl map.lanesecDependencies fun _ _ _ => mem_lanesecDependencies]
  simp only [Finset.notMem_empty, false_or, List.mem_filter, Finset.mem_sort, decide_eq_true_iff,
    Shares, ← exists_or]
  refine exists_congr fun b => ?_
  constructor
  · rintro (⟨⟨hb, hne⟩, hid, h⟩ | ⟨⟨hb, hne⟩, hid, h⟩)
    · exact ⟨hb, hne, hid, .inl h⟩
    · exact ⟨hb, hne, hid, .inr h⟩
  · rintro ⟨hb, hne, hid, h | h⟩
    · exact .inl ⟨⟨hb, hne⟩, hid, h⟩
    · exact .inr ⟨⟨hb, hne⟩, hid, h⟩

/-- **`get_block_dependencies`** finds the blocks that share something with the input exactly
when block 0 adds nothing to the others; it is monotone and additive in any case. -/
theorem findsSharing_iff (map : Rendermap rows cols) :
    (∀ input, map.FindsSharing input ↔ map.ZeroIsCovered input) ∧
      (∀ input input', input ⊆ input' →
        map.getBlockDependencies input ⊆ map.getBlockDependencies input') ∧
      ∀ input input', map.getBlockDependencies (input ∪ input') =
        map.getBlockDependencies input ∪ map.getBlockDependencies input' := by
  refine ⟨fun input => ?_, fun input input' hsub id => ?_, fun input input' => ?_⟩
  · unfold FindsSharing ZeroIsCovered
    simp only [mem_getBlockDependencies]
    constructor
    · intro h b hb _ id hshares
      exact (h id).mpr ⟨b, hb, hshares⟩
    · intro h id
      constructor
      · rintro ⟨b, hb, -, hshares⟩
        exact ⟨b, hb, hshares⟩
      · rintro ⟨b, hb, hshares⟩
        by_cases hzero : b.val = 0
        · exact h b hb hzero id hshares
        · exact ⟨b, hb, hzero, hshares⟩
  · rw [mem_getBlockDependencies, mem_getBlockDependencies]
    rintro ⟨b, hb, h⟩
    exact ⟨b, hsub hb, h⟩
  · ext id
    simp only [Finset.mem_union, mem_getBlockDependencies]
    constructor
    · rintro ⟨b, hb | hb, h⟩
      · exact .inl ⟨b, hb, h⟩
      · exact .inr ⟨b, hb, h⟩
    · rintro (⟨b, hb, h⟩ | ⟨b, hb, h⟩)
      · exact ⟨b, .inl hb, h⟩
      · exact ⟨b, .inr hb, h⟩

end Rendermap

/-- Two blocks with one lane section. -/
def sharedLanesec : Rendermap 1 2 where
  block _ := ⟨[], [⟨1, 8, [0, 1]⟩], []⟩
  fits := by decide
  roadSegs_sorted := by decide
  laneSecs_sorted := by decide
  roadObjs_sorted := by decide
  roadSegs_unique := by decide
  laneSecs_unique := by decide
  roadObjs_unique := by decide
  laneSecs_referred := by decide
  roadObjs_referred := by decide

/-- Block 0 shares a lane section with block 1, and depends on nothing. -/
theorem not_findsSharing_zero : ¬ sharedLanesec.FindsSharing {0} := by
  intro h
  have hshares : sharedLanesec.Shares 0 1 := by
    exact ⟨by decide, .inl ⟨⟨1, 8, [0, 1]⟩, by decide, by decide⟩⟩
  have hone := (h 1).mpr ⟨0, Finset.mem_singleton_self 0, hshares⟩
  rw [Rendermap.mem_getBlockDependencies] at hone
  obtain ⟨b, hb, hne, -⟩ := hone
  rw [Finset.mem_singleton.mp hb] at hne
  exact hne rfl

end V2I.StoredMap
