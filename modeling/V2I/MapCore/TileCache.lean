import V2I.Lib.Machine
import V2I.Lib.StdMap
import V2I.Zasbsc

/-!
# V2I.MapCore.TileCache

`tilecache_impl` of `tilecache.cpp`: map tiles are loaded from buffers, their blocks are
locked, unlocked and released, and a tile is freed with its last block and its last
reference.

A tile carries blocks, and the objects of the blocks. A block may refer to an object that
an earlier tile has brought; such a reference holds the id of the object until the tile is
loaded (`fix_blocks_unlocked`) and its address from then on.

A tile is named by the address of its buffer. The tree `_maptree` holds the same tiles as
the list `_maplist`, so only the list is here. An operation has no result (`none`) where the
code follows a pointer that points nowhere: to a freed tile, or in a tree node that was
never linked. `release_blocks` and `unlock_blocks` read the `std::map` node of a block behind its
`erase`; it has the values it had here. In the memory of the program the `std::string` of an
approach id of 72 to 87 bytes, made while the block is released, can take its place.
-/

namespace V2I.TileCache

/-! ## Tiles -/

/-- A pointer in an index table of a block. -/
inductive Slot where
  /-- to an object of the same buffer -/
  | own (idx : ℕ)
  /-- `referring_id`: the id of an object of another tile -/
  | referring (id : UInt32)
  /-- to an object of another tile -/
  | object (map idx : ℕ)
  deriving DecidableEq

/-- The bits of two doubles. -/
structure Vec2D where
  x : UInt64
  y : UInt64
  deriving DecidableEq

/-- `junction_v1` -/
structure Junction where
  center : Vec2D
  approachs : List Bytes
  deriving DecidableEq

/-- `blockinfo_v1` -/
structure Block where
  row : Int32
  col : Int32
  roadSegs : List Slot
  laneSecs : List Slot
  roadObjs : List Slot
  junctions : List Junction
  deriving DecidableEq

/-- All pointers of a block. -/
def Block.slots (blk : Block) : List Slot := blk.roadSegs ++ blk.laneSecs ++ blk.roadObjs

/-- `rendermap_v1`, with the ids of the objects in its three index tables. -/
structure Rendermap where
  persistence : Bool
  mapinfoOnly : Bool
  uuid : BitVec 128
  cols : Int32
  blocks : List Block
  roadsegs : List UInt32
  lanesecs : List UInt32
  roadobjs : List UInt32
  deriving DecidableEq

/-- A tile as it stands in a buffer: no pointer leads out of it. -/
structure TileBuffer extends Rendermap where
  closed : ∀ blk ∈ blocks, ∀ slot ∈ blk.slots, ∀ map idx, slot ≠ .object map idx

/-- `rendermap_impl` -/
structure RendermapImpl where
  addr : ℕ
  refcnt : ℤ
  activeBlkcnt : ℤ
  map : Rendermap
  deriving DecidableEq

/-- `blk->row * map->cols + blk->col` -/
def blkid (cols : Int32) (blk : Block) : UInt32 := (blk.row * cols + blk.col).toUInt32

/-- The ids of the blocks of a tile. -/
def Rendermap.blkids (map : Rendermap) : List UInt32 := map.blocks.map (blkid map.cols)

/-! ## The cache -/

/-- `blockcache`. The pointer to the block is its index in the tile. -/
structure BlockCache where
  locked : Bool
  map : ℕ
  block : ℕ
  deriving DecidableEq

/-- `tilecache_impl`. Of `_mapinfo` only the uuid is read. -/
structure TilecacheImpl where
  blocks : StdMap UInt32 BlockCache
  inactiveBlocks : StdMap UInt32 BlockCache
  approachs : StdMap Bytes Vec2D
  maplist : List RendermapImpl
  mapinfo : BitVec 128
  deriving DecidableEq

/-- `tilecache_impl()` -/
def TilecacheImpl.new : TilecacheImpl := ⟨.empty, .empty, .empty, [], 0⟩

/-- Negative return values. -/
inductive Error where
  | ebadparm
  | enomemory
  | einvalid
  | enotsupport
  /-- `-2` of `add_tile` -/
  | fix
  deriving DecidableEq

/-- `map_available()` -/
def mapAvailable (s : TilecacheImpl) : Bool := s.mapinfo ≠ 0

/-- `getmap_byaddr_unlocked(addr)`, for an address inside a tile. -/
def getmapByaddrUnlocked (s : TilecacheImpl) (addr : ℕ) : Option RendermapImpl :=
  s.maplist.find? fun m => m.addr = addr

/-- Change a tile in place. -/
def TilecacheImpl.updateMap (s : TilecacheImpl) (addr : ℕ) (f : RendermapImpl → RendermapImpl) :
    TilecacheImpl :=
  { s with maplist := s.maplist.map fun m => if m.addr = addr then f m else m }

/-! ## Adding a tile -/

/-- The loop of `find`; `stop` is one more than its `end`. -/
def findLoop (tbl : List UInt32) (uid : UInt32) : ℕ → ℕ → ℕ → Option ℕ
  | 0, _, _ => none
  | fuel + 1, start, stop =>
      if start < stop then
        let mid := (start + (stop - 1)) / 2
        match tbl[mid]? with
        | none => none
        | some val =>
            if uid = val then some mid
            else if val < uid then findLoop tbl uid fuel (mid + 1) stop
            else findLoop tbl uid fuel start mid
      else none

/-- `find(tbl, uid)`: the binary search for an object, none for a negative result. -/
def find (tbl : List UInt32) (uid : UInt32) : Option ℕ := findLoop tbl uid tbl.length 0 tbl.length

variable {tbl : List UInt32} {uid : UInt32}

/-- What the loop finds between `start` and `stop`. -/
theorem findLoop_eq_some {fuel start stop i : ℕ} (h : findLoop tbl uid fuel start stop = some i) :
    tbl[i]? = some uid := by
  induction fuel generalizing start stop with
  | zero => cases h
  | succ fuel ih =>
      rw [findLoop] at h
      split at h
      · cases hmid : tbl[(start + (stop - 1)) / 2]? with
        | none => simp [hmid] at h
        | some val =>
            simp only [hmid] at h
            split at h
            · next heq =>
                cases h
                rw [hmid, heq]
            · split at h
              · exact ih h
              · exact ih h
      · cases h

/-- The loop finds an id that lies between `start` and `stop`. -/
theorem findLoop_isSome (hsorted : tbl.Pairwise (· < ·)) {fuel start stop i : ℕ}
    (hstop : stop ≤ tbl.length) (hfuel : stop ≤ start + fuel) (hi : tbl[i]? = some uid)
    (hstart : start ≤ i) (hlt : i < stop) : (findLoop tbl uid fuel start stop).isSome := by
  induction fuel generalizing start stop with
  | zero => omega
  | succ fuel ih =>
      have hmid : (start + (stop - 1)) / 2 < tbl.length := by omega
      have hget := List.pairwise_iff_getElem.mp hsorted
      obtain ⟨hilt, heq⟩ := List.getElem?_eq_some_iff.mp hi
      rw [findLoop, if_pos (by omega)]
      simp only [List.getElem?_eq_getElem hmid]
      split
      · rfl
      · next hne =>
          split
          · next hval =>
              -- the id lies behind the middle
              refine ih hstop (by omega) ?_ hlt
              by_contra hle
              rcases Nat.lt_or_eq_of_le (show i ≤ (start + (stop - 1)) / 2 by omega) with h | h
              · have := hget i _ hilt hmid h
                rw [heq] at this
                exact absurd this (UInt32.lt_asymm hval)
              · subst h
                exact hne heq.symm
          · next hval =>
              refine ih (by omega) (by omega) hstart ?_
              by_contra hle
              rcases Nat.lt_or_eq_of_le (show (start + (stop - 1)) / 2 ≤ i by omega) with h | h
              · have := hget _ i hmid hilt h
                rw [heq] at this
                exact hval this
              · subst h
                exact hne heq.symm

/-- **`find`** on a table in the order of its ids finds the ids of the table. -/
theorem find_isSome_iff (hsorted : tbl.Pairwise (· < ·)) : (find tbl uid).isSome ↔ uid ∈ tbl := by
  constructor
  · intro h
    obtain ⟨i, hi⟩ := Option.isSome_iff_exists.mp h
    exact List.mem_of_getElem? (findLoop_eq_some hi)
  · intro h
    obtain ⟨i, hi⟩ := List.mem_iff_getElem?.mp h
    have hilt := (List.getElem?_eq_some_iff.mp hi).1
    exact findLoop_isSome hsorted (Nat.le_refl _) (by omega) hi (Nat.zero_le i) hilt

/-- The index tables of a tile. -/
inductive Table where
  | roadsegs
  | lanesecs
  | roadobjs
  deriving DecidableEq

def Rendermap.table (map : Rendermap) : Table → List UInt32
  | .roadsegs => map.roadsegs
  | .lanesecs => map.lanesecs
  | .roadobjs => map.roadobjs

/-- A computation that changes the tiles of the list, also when it fails. -/
abbrev Fix (α : Type) := OptionT (StateM (List RendermapImpl)) α

/-- The loop over `_maplist` in the three functions below: take the object from the first
other tile that has it, and add a reference to that tile. -/
def fixLoop (table : Table) (rmap : ℕ) (id : UInt32) :
    List RendermapImpl → Option Slot × List RendermapImpl
  | [] => (none, [])
  | m :: maps =>
      match if m.addr = rmap then none else find (m.map.table table) id with
      | some idx => (some (.object m.addr idx), { m with refcnt := m.refcnt + 1 } :: maps)
      | none =>
          let (slot, maps) := fixLoop table rmap id maps
          (slot, m :: maps)

def fixId (table : Table) (rmap : ℕ) (id : UInt32) : Fix Slot := fun maps => fixLoop table rmap id maps

/-- `fix_roadsecid_unlocked(rmap, refid)` -/
def fixRoadsecidUnlocked (rmap : ℕ) (id : UInt32) : Fix Slot := fixId .roadsegs rmap id

/-- `fix_lanesecid_unlocked(rmap, refid)` -/
def fixLanesecidUnlocked (rmap : ℕ) (id : UInt32) : Fix Slot := fixId .lanesecs rmap id

/-- `fix_roadobject_unlocked(rmap, refid)` -/
def fixRoadobjectUnlocked (rmap : ℕ) (id : UInt32) : Fix Slot := fixId .roadobjs rmap id

/-- The walk over `rid_list`, `lsid_list` or `objid_list`. These lists are built at their
front, so the walk starts at the last slot. -/
def fixSlots (fix : UInt32 → Fix Slot) : List Slot → Fix (List Slot)
  | [] => pure []
  | slot :: slots => do
      let slots ← fixSlots fix slots
      match slot with
      | .referring id => return (← fix id) :: slots
      | slot => return slot :: slots

/-- `fix_blocks_unlocked(rmap)` on one block -/
def fixBlock (rmap : ℕ) (blk : Block) : Fix Block := do
  let roadSegs ← fixSlots (fixRoadsecidUnlocked rmap) blk.roadSegs
  let laneSecs ← fixSlots (fixLanesecidUnlocked rmap) blk.laneSecs
  let roadObjs ← fixSlots (fixRoadobjectUnlocked rmap) blk.roadObjs
  return { blk with roadSegs := roadSegs, laneSecs := laneSecs, roadObjs := roadObjs }

/-- `fix_blocks_unlocked(rmap)` -/
def fixBlocksUnlocked (rmap : ℕ) : List Block → Fix (List Block)
  | [] => pure []
  | blk :: blks => do
      let blk ← fixBlock rmap blk
      return blk :: (← fixBlocksUnlocked rmap blks)

/-- What `update_blockmap_unlocked` inserts. -/
def cachesOf (rmap : RendermapImpl) : List (UInt32 × BlockCache) :=
  rmap.map.blocks.mapIdx fun i blk => (blkid rmap.map.cols blk, ⟨false, rmap.addr, i⟩)

/-- `update_blockmap_unlocked(rmap)` -/
def updateBlockmapUnlocked (s : TilecacheImpl) (rmap : RendermapImpl) : TilecacheImpl :=
  { s with blocks := (cachesOf rmap).foldl (fun m e => m.insert e.1 e.2) s.blocks }

/-- `remove_blockmap_unlocked(rmap)` -/
def removeBlockmapUnlocked (s : TilecacheImpl) (rmap : RendermapImpl) : TilecacheImpl :=
  { s with blocks := rmap.map.blkids.foldl StdMap.erase s.blocks }

/-- `release_map_unlocked(map)`. A tile that is not in the list has a tree node that was
never set, and `avl_remove` follows its pointers. -/
def releaseMapUnlocked (s : TilecacheImpl) (map : RendermapImpl) : Option TilecacheImpl :=
  let s := removeBlockmapUnlocked s map
  if s.maplist.all fun m => m.addr ≠ map.addr then none
  else
    let maplist := s.maplist.filter fun m => m.addr ≠ map.addr
    some { s with maplist := maplist, mapinfo := if maplist = [] then 0 else s.mapinfo }

/-- `check_uuid_unlocked(map)` -/
def checkUuidUnlocked (s : TilecacheImpl) (map : Rendermap) : Bool × TilecacheImpl :=
  if s.maplist = [] then (true, if s.mapinfo = 0 then { s with mapinfo := map.uuid } else s)
  else (s.mapinfo = map.uuid, s)

/-- `add_approach(rmap)` -/
def addApproach (s : TilecacheImpl) (map : Rendermap) : TilecacheImpl :=
  { s with approachs := (map.blocks.flatMap Block.junctions).foldl (fun a junc =>
      junc.approachs.foldl (fun a uuid => a.set uuid junc.center) a) s.approachs }

/-- The address of a new buffer. -/
def alloc (s : TilecacheImpl) : ℕ := (s.maplist.map RendermapImpl.addr).foldr max 0 + 1

/-- `add_tile(buffer, sz)`: the number of blocks or an error. An error comes in place of a
buffer that `load_frombuffer` does not accept. -/
def addTile (s : TilecacheImpl) (buffer : Except Error TileBuffer) :
    Option (TilecacheImpl × Except Error ℕ) :=
  match buffer with
  | .error e => some (s, .error e)
  | .ok tile =>
      if tile.persistence then some (s, .error .enotsupport)
      else
        let rdmap : RendermapImpl := ⟨alloc s, 0, tile.blocks.length, tile.toRendermap⟩
        match checkUuidUnlocked s tile.toRendermap with
        | (false, s) => (releaseMapUnlocked s rdmap).map fun s => (s, .error .einvalid)
        | (true, s) =>
            if tile.mapinfoOnly then some (s, .ok 0)
            else
              let s := updateBlockmapUnlocked { s with maplist := s.maplist ++ [rdmap] } rdmap
              match fixBlocksUnlocked rdmap.addr tile.blocks s.maplist with
              | (none, maplist) =>
                  (releaseMapUnlocked { s with maplist := maplist } rdmap).map fun s =>
                    (s, .error .fix)
              | (some blocks, maplist) =>
                  let s := { s with maplist := maplist }.updateMap rdmap.addr fun m =>
                    { m with map := { m.map with blocks := blocks } }
                  some (addApproach s tile.toRendermap, .ok tile.blocks.length)

/-! ## Locking and releasing -/

/-- `check_release_rendermap_unlocked(map)` -/
def checkReleaseRendermapUnlocked (s : TilecacheImpl) (addr : ℕ) : Option TilecacheImpl :=
  match getmapByaddrUnlocked s addr with
  | none => none
  | some map => if 0 < map.activeBlkcnt ∨ 0 < map.refcnt then some s else releaseMapUnlocked s map

/-- One of the loops of `release_block_unlocked` over the pointers of a block of the tile
at `own`. -/
def releaseRefs (own : ℕ) : TilecacheImpl → List Slot → Option TilecacheImpl
  | s, [] => some s
  | s, .own _ :: slots => releaseRefs own s slots
  | _, .referring _ :: _ => none
  | s, .object map _ :: slots =>
      if map = own then releaseRefs own s slots
      else
        match getmapByaddrUnlocked s map with
        | none => none
        | some _ =>
            match checkReleaseRendermapUnlocked
                (s.updateMap map fun m => { m with refcnt := m.refcnt - 1 }) map with
            | none => none
            | some s => releaseRefs own s slots

/-- The block a cache entry points to. -/
def blockOf (s : TilecacheImpl) (cache : BlockCache) : Option Block :=
  (getmapByaddrUnlocked s cache.map).bind fun m => m.map.blocks[cache.block]?

/-- `release_block_unlocked(blkid, cache)` -/
def releaseBlockUnlocked (s : TilecacheImpl) (cache : BlockCache) : Option TilecacheImpl := do
  let blk ← blockOf s cache
  let s ← releaseRefs cache.map s blk.roadSegs
  let s ← releaseRefs cache.map s blk.laneSecs
  let s ← releaseRefs cache.map s blk.roadObjs
  let s := { s with approachs :=
    (blk.junctions.flatMap Junction.approachs).foldl StdMap.erase s.approachs }
  let s := s.updateMap cache.map fun m => { m with activeBlkcnt := m.activeBlkcnt - 1 }
  checkReleaseRendermapUnlocked s cache.map

/-- `lock_blocks(blkids)` -/
def lockBlocks (s : TilecacheImpl) (blkids : List UInt32) : TilecacheImpl × Except Error ℕ :=
  if blkids = [] then (s, .ok 0)
  else if !mapAvailable s then (s, .error .einvalid)
  else
    let blocks := blkids.foldl (fun m id => m.modify id fun c => { c with locked := true }) s.blocks
    ({ s with blocks := blocks }, .ok 0)

/-- `unlock_blocks(blkids)` for one id -/
def unlockBlock (s : TilecacheImpl) (id : UInt32) : Option TilecacheImpl :=
  match s.blocks.find id with
  | none =>
      match s.inactiveBlocks.find id with
      | none => some s
      | some cache =>
          releaseBlockUnlocked { s with inactiveBlocks := s.inactiveBlocks.erase id } cache
  | some _ =>
      some { s with blocks := s.blocks.modify id fun c => { c with locked := false } }

/-- `unlock_blocks(blkids)` -/
def unlockBlocks (s : TilecacheImpl) (blkids : List UInt32) :
    Option (TilecacheImpl × Except Error ℕ) :=
  if blkids = [] then some (s, .ok 0)
  else if !mapAvailable s then some (s, .error .einvalid)
  else (blkids.foldlM unlockBlock s).map fun s => (s, .ok 0)

/-- `release_blocks(blkids)` for one id; the block has no mesh. -/
def releaseBlock (s : TilecacheImpl) (id : UInt32) : Option TilecacheImpl :=
  match s.blocks.find id with
  | none => some s
  | some cache =>
      if cache.locked then
        some { s with
          inactiveBlocks := s.inactiveBlocks.insert id cache
          blocks := s.blocks.erase id }
      else releaseBlockUnlocked { s with blocks := s.blocks.erase id } cache

/-- `release_blocks(blkids)` -/
def releaseBlocks (s : TilecacheImpl) (blkids : List UInt32) :
    Option (TilecacheImpl × Except Error ℕ) :=
  if blkids = [] ∨ !mapAvailable s then some (s, .ok 0)
  else (blkids.foldlM releaseBlock s).map fun s => (s, .ok 0)

/-- A call from outside. The ids are those of a `std::set`, in its order. -/
inductive Call where
  | addTile (buffer : Except Error TileBuffer)
  | lockBlocks (blkids : List UInt32)
  | unlockBlocks (blkids : List UInt32)
  | releaseBlocks (blkids : List UInt32)

def step (s : TilecacheImpl) : Call → Option (TilecacheImpl × Except Error ℕ)
  | .addTile buffer => addTile s buffer
  | .lockBlocks blkids => some (lockBlocks s blkids)
  | .unlockBlocks blkids => unlockBlocks s blkids
  | .releaseBlocks blkids => releaseBlocks s blkids

end V2I.TileCache
