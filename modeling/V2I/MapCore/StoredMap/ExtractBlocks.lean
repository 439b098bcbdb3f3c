import V2I.Lib.SortedSet
import V2I.MapCore.StoredMap
import V2I.MapCore.TileCache

/-!
# V2I.MapCore.StoredMap.ExtractBlocks

`extract_blocks` of `rendermap_impl`: a tile with some blocks of the stored map. An object that
the receiver has already, in one of the blocks it shares, is referred to by its id; any other
one is copied into the tile. It is copied for each block that has it, and the sets of the
tile's objects keep the first copy of each id: the other blocks refer to copies of their own.

The buffer of the tile is known by the positions in it. Junctions are left out, and so is the
case that memory runs out.
-/

namespace V2I.StoredMap

variable {rows cols n : ℕ} {α : Type}

/-! ## The tile -/

/-- A copy of an object, at a position of the buffer. -/
structure Copy (α : Type) where
  pos : ℕ
  obj : α
  deriving DecidableEq

/-- An entry in a table of a block: the offset of a copy, or the id of an object. -/
inductive Ref (α : Type) where
  | own (copy : Copy α)
  | referring (id : UInt32)
  deriving DecidableEq

/-- The copy referred to. -/
def Ref.copy? : Ref α → Option (Copy α)
  | .own c => some c
  | .referring _ => none

/-- `blockinfo_v1` at a position of the buffer. -/
structure TileBlock (n : ℕ) where
  pos : ℕ
  row : ℕ
  col : ℕ
  roadSegs : List (Ref Roadseg)
  laneSecs : List (Ref (Lanesec n))
  roadObjs : List (Ref (RoadObject n))

/-- `rendermap_v1`: its index tables. -/
structure Tile (n : ℕ) where
  blocks : List (TileBlock n)
  roadsegs : List (Copy Roadseg)
  lanesecs : List (Copy (Lanesec n))
  roadobjs : List (Copy (RoadObject n))

/-- `sizeof` of the structures of a tile. -/
structure Sizeof where
  rendermap : ℕ
  offset : ℕ
  blockinfo : ℕ
  roadseg : ℕ
  referenceLine : ℕ
  superElevation : ℕ
  laneSection : ℕ
  roadObject : ℕ
  siglightInfo : ℕ
  roadsideDeviceInfo : ℕ
  arrowInfo : ℕ
  sigboardInfo : ℕ
  blockinfo_pos : 0 < blockinfo

/-- The bytes of a copied road segment. -/
def Sizeof.roadsegBytes (z : Sizeof) (r : Roadseg) : ℕ :=
  z.roadseg + (z.referenceLine + r.refline) + (z.superElevation + r.superelev)

/-- `extract_classifed_roadobject_extension`: the bytes behind a road object, none for a type
that is not known. -/
def Sizeof.extension (z : Sizeof) (type : ℕ) : Option ℕ :=
  if type = robjtypeUnclassfied then some 0
  else if type = robjtypeSignalLight then some z.siglightInfo
  else if type = robjtypeRsd then some z.roadsideDeviceInfo
  else if type = robjtypeArrow then some z.arrowInfo
  else if type = robjtypeSigboard then some z.sigboardInfo
  else if type = robjtypeClassified ∨ type = robjtypeJunconver then some 0
  else none

/-! ## Extracting -/

/-- The loop over a table of a block, from a position of the buffer on. -/
def extractTable (shared : UInt32 → Bool) (key : α → UInt32) (bytes : α → Option ℕ) :
    List α → ℕ → Option (List (Ref α) × ℕ)
  | [], pos => some ([], pos)
  | x :: xs, pos =>
      if shared (key x) then
        (extractTable shared key bytes xs pos).map fun r => (.referring (key x) :: r.1, r.2)
      else
        (bytes x).bind fun sz =>
          (extractTable shared key bytes xs (pos + sz)).map fun r => (.own ⟨pos, x⟩ :: r.1, r.2)

/-- `extract_roads`, `extract_lanesecs` and `extract_roadobj`: the index table of the block
comes before the copies. -/
def extractObjects (z : Sizeof) (shared : UInt32 → Bool) (key : α → UInt32)
    (bytes : α → Option ℕ) (table : List α) (pos : ℕ) : Option (List (Ref α) × ℕ) :=
  if table.length = 0 then some ([], pos)
  else extractTable shared key bytes table (pos + table.length * z.offset)

/-- Negative return values. -/
inductive Error where
  | eoutofoscope
  /-- `-5`: `extract_roadobj` -/
  | roadobj
  deriving DecidableEq

/-- What a call hands back: the map's header alone, whose tables are not set, or a tile. -/
inductive Extract (n : ℕ) where
  | mapinfo
  | tile (t : Tile n)

namespace Rendermap

variable (z : Sizeof) (map : Rendermap rows cols)

/-- Does a block of the set have an object with this id? -/
def existsInSharedBlocks (ids : Block (rows * cols) → List UInt32) (shared : Finset ℕ)
    (uid : UInt32) : Bool :=
  (shared.sort (· ≤ ·)).any fun blkid =>
    if h : blkid < rows * cols then (TileCache.find (ids (map.block ⟨blkid, h⟩)) uid).isSome
    else false

/-- `road_exists_in_shared_blocks` -/
def roadExistsInSharedBlocks : Finset ℕ → UInt32 → Bool :=
  map.existsInSharedBlocks fun blk => blk.roadSegs.map (·.id)

/-- `lanesec_exists_in_shared_blocks` -/
def lanesecExistsInSharedBlocks : Finset ℕ → UInt32 → Bool :=
  map.existsInSharedBlocks fun blk => blk.laneSecs.map (·.id)

/-- `roadobj_exists_in_shared_blocks` -/
def roadobjExistsInSharedBlocks : Finset ℕ → UInt32 → Bool :=
  map.existsInSharedBlocks fun blk => blk.roadObjs.map (·.id)

/-- `extract_roads` -/
def extractRoads (shared : Finset ℕ) (blk : Block (rows * cols)) :=
  extractObjects z (fun uid => shared.card ≠ 0 && map.roadExistsInSharedBlocks shared uid)
    (·.id) (fun r => some (z.roadsegBytes r)) blk.roadSegs

/-- `extract_lanesecs` -/
def extractLanesecs (shared : Finset ℕ) (blk : Block (rows * cols)) :=
  extractObjects z (fun uid => shared.card ≠ 0 && map.lanesecExistsInSharedBlocks shared uid)
    (·.id) (fun ls => some (z.laneSection + ls.sizeInbytes)) blk.laneSecs

/-- `extract_roadobj` -/
def extractRoadobj (shared : Finset ℕ) (blk : Block (rows * cols)) :=
  extractObjects z (map.roadobjExistsInSharedBlocks shared) (·.id)
    (fun ro => (z.extension ro.type).map (z.roadObject + ro.sizeInbytes + ·)) blk.roadObjs

/-- The body of the loop over the blocks. -/
def extractBlock (shared : Finset ℕ) (blkid : Fin (rows * cols)) (pos : ℕ) :
    Option (TileBlock (rows * cols) × ℕ) := do
  let blk := map.block blkid
  let roads ← map.extractRoads z shared blk (pos + z.blockinfo)
  let lanesecs ← map.extractLanesecs z shared blk roads.2
  let roadobjs ← map.extractRoadobj z shared blk lanesecs.2
  return (⟨pos, blkid / cols, blkid % cols, roads.1, lanesecs.1, roadobjs.1⟩, roadobjs.2)

/-- The loop over the blocks. -/
def extractEach (shared : Finset ℕ) : List (Fin (rows * cols)) → ℕ →
    Option (List (TileBlock (rows * cols)))
  | [], _ => some []
  | blkid :: blkids, pos =>
      (map.extractBlock z shared blkid pos).bind fun r =>
        (extractEach shared blkids r.2).map (r.1 :: ·)

/-- The blocks with the ids of a set, in their order. -/
def blkids (blkset : Finset ℕ) : List (Fin (rows * cols)) :=
  (blkset.sort (· ≤ ·)).filterMap fun blkid =>
    if h : blkid < rows * cols then some ⟨blkid, h⟩ else none

/-- The copies that blocks refer to, in the order in which they were made. -/
def copies (refs : TileBlock n → List (Ref α)) (blks : List (TileBlock n)) : List (Copy α) :=
  (blks.flatMap refs).filterMap Ref.copy?

/-- The index tables, each from a `std::set`: of positions, or of copies ordered by their ids. -/
def assemble (blks : List (TileBlock n)) : Tile n where
  blocks := SortedSet.ofList (·.pos) blks
  roadsegs := SortedSet.ofList (·.obj.id.toNat) (copies (·.roadSegs) blks)
  lanesecs := SortedSet.ofList (·.obj.id.toNat) (copies (·.laneSecs) blks)
  roadobjs := SortedSet.ofList (·.obj.id.toNat) (copies (·.roadObjs) blks)

/-- `extract_blocks(blkset, shrblkset, ret)` -/
def extractBlocks (blkset shrblkset : Finset ℕ) : Except Error (Extract (rows * cols)) :=
  if blkset = ∅ then .ok .mapinfo
  else if ∃ blkid ∈ blkset, rows * cols ≤ blkid then .error .eoutofoscope
  else
    match map.extractEach z shrblkset (blkids blkset) z.rendermap with
    | none => .error .roadobj
    | some blks => .ok (.tile (assemble blks))

end Rendermap

/-- `getblock(blkid)` on a tile: a binary search like `find`, for `row * cols + col`. -/
def Tile.getblock (cols : ℕ) (t : Tile n) (blkid : UInt32) : Option (TileBlock n) :=
  (TileCache.find (t.blocks.map fun b => UInt32.ofNat (b.row * cols + b.col)) blkid).bind
    (t.blocks[·]?)

end V2I.StoredMap
