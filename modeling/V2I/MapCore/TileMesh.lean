import Mathlib.Data.Finset.Basic
import Mathlib.Data.List.Sort
import V2I.MapCore.TileCache.AddTile

/-!
# V2I.MapCore.TileMesh

The meshes of `tilecache.cpp` and `rendermap.cpp`: `get_mesh` draws a block, `release_mesh`
lets the mesh of a block go.

An object that several blocks refer to is drawn by one of them, its owner
(`meshgen_blockid`); `referred_blkids` are the blocks that have a mesh and refer to it. When
the mesh of the owner goes, other blocks are put on the list of expired meshes, to be drawn
again with the objects that are left without an owner.

`refset` of `entrust_mesh_unlocked` refers to a copy that the loop before has made and dropped,
and `gbuf_` may move the bitmaps it has handed out; both are read with the values they had last.
An `assert` does not stop the program: a release build has none, and a debug build only ends some
of the runs.
-/

namespace V2I.TileMesh

open TileCache Function

/-! ## Objects -/

/-- The tables of a block whose objects are drawn. -/
inductive Kind where
  | laneSec
  | roadObj
  deriving DecidableEq

/-- The address of an object: its table, its tile, its index there. -/
structure Obj where
  kind : Kind
  map : ℕ
  idx : ℕ
  deriving DecidableEq

/-- What drawing reads of an object: its type, its road, and the key under which the road
takes it, as its place in the order of the keys (`s0` of a lane section, `id` of a road
object). It has no key when `size_inbytes` is 0. -/
structure ObjData where
  unclassified : Bool
  roadid : UInt32
  key : Option ℤ
  deriving DecidableEq

/-- The serialized part of `lane_section_v1`. It is never empty. -/
structure LaneSection where
  roadid : UInt32
  s0 : ℤ

/-- The serialized part of `road_object_v1`. -/
structure RoadObject where
  unclassified : Bool
  roadid : UInt32
  id : Option ℤ

/-- A tile with the data of its objects. -/
structure MeshTile extends TileBuffer where
  lanesecData : ℕ → LaneSection
  roadobjData : ℕ → RoadObject

/-- The data of an object of a tile. -/
def MeshTile.objData (tile : MeshTile) : Kind → ℕ → ObjData
  | .laneSec, idx => ⟨false, (tile.lanesecData idx).roadid, some (tile.lanesecData idx).s0⟩
  | .roadObj, idx =>
      ⟨(tile.roadobjData idx).unclassified, (tile.roadobjData idx).roadid,
        (tile.roadobjData idx).id⟩

/-- `meshgen_blockid` and `referred_blkids` of an object. -/
structure Extinfo where
  meshgenBlockid : ℤ
  referredBlkids : Option (StdMap UInt32 Unit)
  deriving DecidableEq

/-- As `extract_lanesec_extinfo` and `extract_roadobj_extinfo` write it. -/
def Extinfo.new : Extinfo := ⟨-1, none⟩

/-- The blocks that have drawn an object, or have left it to its owner. -/
def Extinfo.refs (e : Extinfo) : List UInt32 := (e.referredBlkids.map StdMap.keys).getD []

/-- `add_referred_blockid(blkid)` -/
def Extinfo.addReferredBlockid (e : Extinfo) (blkid : UInt32) : Extinfo :=
  { e with referredBlkids := some ((e.referredBlkids.getD .empty).insert blkid ()) }

/-- A mesh: the objects it draws. -/
abbrev Mesh := List Obj

/-- `tilecache_impl` with the meshes: `meshbuf` is `_meshbuf` of the tile at an address,
`mesh` says that `blockcache::mesh` was assigned, `expired` is `_mesh_expired_blocks`. -/
structure Cache where
  tiles : TilecacheImpl
  data : Obj → ObjData
  ext : Obj → Extinfo
  meshbuf : ℕ → UInt32 → Option Mesh
  mesh : UInt32 → Bool
  expired : Finset UInt32

/-- `tilecache_impl()` -/
def Cache.new : Cache :=
  ⟨.new, fun _ => ⟨false, 0, none⟩, fun _ => .new, fun _ _ => none, fun _ => false, ∅⟩

/-- The object behind a pointer of a block of the tile at `own`. -/
def objOf (own : ℕ) (kind : Kind) : Slot → Option Obj
  | .own idx => some ⟨kind, own, idx⟩
  | .referring _ => none
  | .object map idx => some ⟨kind, map, idx⟩

/-- The pointers of a block to objects of a kind. -/
def slotsOf (blk : Block) : Kind → List Slot
  | .laneSec => blk.laneSecs
  | .roadObj => blk.roadObjs

/-- The objects of a block of the tile at `own`. -/
def objects (own : ℕ) (blk : Block) (kind : Kind) : Option (List Obj) :=
  (slotsOf blk kind).mapM (objOf own kind)

/-! ## Drawing a block -/

/-- `getblock(blkid)` of a tile: the index of the block. -/
def getblock (map : Rendermap) (blkid : UInt32) : Option ℕ := find map.blkids blkid

/-- The ids of the road segments of a block. -/
def roadsegIds (s : TilecacheImpl) (own : ℕ) (blk : Block) : Option (List UInt32) :=
  blk.roadSegs.mapM fun
    | .own idx => (getmapByaddrUnlocked s own).bind fun m => m.map.roadsegs[idx]?
    | .referring _ => none
    | .object map idx => (getmapByaddrUnlocked s map).bind fun m => m.map.roadsegs[idx]?

/-- `s_to_lanesection.insert` and `id_to_object.insert` of a road: the first entry of a key
stays. An object without data is not inserted. -/
def insertObject (data : Obj → ObjData) (odrm : Mesh) (o : Obj) : Mesh :=
  if (data o).key = none ∨ ∃ o' ∈ odrm, o'.kind = o.kind ∧ (data o').roadid = (data o).roadid ∧
    (data o').key = (data o).key then odrm
  else odrm ++ [o]

section Deserialize

variable (data : Obj → ObjData) (roads : List UInt32) (cur : Int32)

/-- The loop of `deserialize_block_lanesecs` and `deserialize_block_roadobjs`: no mesh where
`get_block_odrv_road` finds no road. -/
def deserialize : List Obj → (Obj → Extinfo) → Mesh → (Obj → Extinfo) × Option Mesh
  | [], ext, odrm => (ext, some odrm)
  | o :: os, ext, odrm =>
      let blkid := (ext o).meshgenBlockid
      let e := (ext o).addReferredBlockid cur.toUInt32
      if blkid < 0 then
        -- there is no owner
        let ext := update ext o { e with meshgenBlockid := cur.toInt }
        match find roads (data o).roadid with
        | none => (ext, none)
        | some _ => deserialize os ext (insertObject data odrm o)
      else if blkid ≠ cur.toInt then deserialize os (update ext o e) odrm
      else
        match find roads (data o).roadid with
        | none => (update ext o e, none)
        | some _ => deserialize os (update ext o e) (insertObject data odrm o)

/-- `deserialize_block_lanesecs(blk, odrm, r)` -/
def deserializeBlockLanesecs (os : List Obj) (ext : Obj → Extinfo) (odrm : Mesh) :
    (Obj → Extinfo) × Option Mesh := deserialize data roads cur os ext odrm

/-- `deserialize_block_roadobjs(blk, odrm, r)`: unclassified objects are skipped. -/
def deserializeBlockRoadobjs (os : List Obj) (ext : Obj → Extinfo) (odrm : Mesh) :
    (Obj → Extinfo) × Option Mesh :=
  deserialize data roads cur (os.filter fun o => !(data o).unclassified) ext odrm

end Deserialize

/-- `generate_mesh(blkid)` of the tile at `addr` -/
def generateMesh (s : Cache) (addr : ℕ) (blkid : UInt32) : Option (Cache × Option Mesh) := do
  let m ← getmapByaddrUnlocked s.tiles addr
  if m.map.persistence then return (s, none)
  match (getblock m.map blkid).bind (m.map.blocks[·]?) with
  | none => return (s, none)
  | some blk =>
      let cur := blk.row * m.map.cols + blk.col
      let roads ← roadsegIds s.tiles addr blk
      let lanesecs ← objects addr blk .laneSec
      let roadobjs ← objects addr blk .roadObj
      match deserializeBlockLanesecs s.data roads cur lanesecs s.ext [] with
      | (ext, none) => return ({ s with ext := ext }, none)
      | (ext, some odrm) =>
          match deserializeBlockRoadobjs s.data roads cur roadobjs ext odrm with
          | (ext, none) => return ({ s with ext := ext }, none)
          | (ext, some odrm) =>
              let meshbuf := update s.meshbuf addr
                (update (s.meshbuf addr) blkid (some odrm))
              return ({ s with ext := ext, meshbuf := meshbuf }, some odrm)

/-! ## The calls -/

/-- What a call returns: the result of `add_tile`, whether `get_mesh` has a mesh, and whether
`release_mesh` has found the block. -/
inductive Reply where
  | tile (ret : Except Error ℕ)
  | mesh (found : Bool)
  | released (found : Bool)
  deriving DecidableEq

/-- `get_mesh(blkid)`; `outside` says that a caller still has the mesh that was last handed
out for the block. -/
def getMesh (s : Cache) (blkid : UInt32) (outside : Bool) : Option (Cache × Reply) :=
  match s.tiles.blocks.find blkid with
  | none => some (s, .mesh false)
  | some blk =>
      let alive := s.mesh blkid && ((s.meshbuf blk.map blkid).isSome || outside)
      if alive ∧ blkid ∉ s.expired then some (s, .mesh true)
      else
        match generateMesh s blk.map blkid with
        | none => none
        | some (s, none) => some (s, .mesh false)
        | some (s, some _) =>
            some ({ s with
              mesh := update s.mesh blkid true
              expired := s.expired.erase blkid }, .mesh true)

/-- A bitmap: its words, the lowest bits first. -/
abbrev Bitmap := List (BitVec 32)

namespace Bitmap

/-- The words for so many bits. -/
def words (count : ℕ) : ℕ := count / 32 + if count % 32 = 0 then 0 else 1

/-- `memset(buf, 0, ...)` on so many words. -/
def zeros (words : ℕ) : Bitmap := List.replicate words 0

/-- `bitmap_setbit` -/
def setbit (bmp : Bitmap) (i : ℕ) : Bitmap := bmp.modify (i / 32) (· ||| 1#32 <<< (i % 32))

/-- `a[i] |= b[i]` for the first words. -/
def unite : ℕ → Bitmap → Bitmap → Bitmap
  | n + 1, a :: as, b :: bs => (a ||| b) :: unite n as bs
  | _, as, _ => as

/-- `bitmap_check_allmarked`: full words first, then the rest bit by bit. -/
def allMarked (bmp : Bitmap) (count : ℕ) : Bool :=
  ((List.range (count / 32)).all fun i => bmp.getD i 0 = 0xFFFFFFFF#32) &&
    (List.range (count % 32)).all fun i => bmp.getD (count / 32) 0 &&& 1#32 <<< i ≠ 0#32

end Bitmap

/-- `ref_bitmap` -/
structure RefBitmap where
  id : UInt32
  refcnt : ℕ
  bmp : Bitmap
  deriving DecidableEq

/-- The entries of a map in the order of their keys. -/
def inOrder {κ α : Type} [LE κ] [DecidableLE κ] (m : StdMap κ α) : List (κ × α) :=
  m.entries.insertionSort fun e e' => e.1 ≤ e'.1

section Merge

variable (blkid : UInt32) (total : ℕ)

/-- What `merge_block_objects_unlocked` changes: the objects, `refmap`, and `index`. -/
structure Merge where
  ext : Obj → Extinfo
  refmap : StdMap UInt32 RefBitmap
  index : ℤ

/-- The bit of the current object in the bitmap of a block. -/
def markRef (index : ℤ) (refmap : StdMap UInt32 RefBitmap) (id : UInt32) :
    StdMap UInt32 RefBitmap :=
  match refmap.find id with
  | none => refmap.insert id ⟨id, 1, (Bitmap.zeros total).setbit index.toNat⟩
  | some _ =>
      refmap.modify id fun ref =>
        { ref with bmp := ref.bmp.setbit index.toNat, refcnt := ref.refcnt + 1 }

/-- The loop over the blocks that refer to the object; an object that only this block refers
to takes no bit. -/
def mergeRefs (size : ℕ) : List UInt32 → StdMap UInt32 RefBitmap × ℤ → StdMap UInt32 RefBitmap × ℤ
  | [], r => r
  | id :: ids, (refmap, index) =>
      if id = blkid then mergeRefs size ids (refmap, if size = 1 then index - 1 else index)
      else mergeRefs size ids (markRef total index refmap id, index)

/-- `merge_block_objects_unlocked` on one object -/
def mergeObject (m : Merge) (o : Obj) : Merge :=
  match (m.ext o).referredBlkids with
  | none => m
  | some refs =>
      if (m.ext o).meshgenBlockid ≠ blkid.toNat then
        let e := { m.ext o with referredBlkids := some (refs.erase blkid) }
        { m with ext := update m.ext o e }
      else
        let (refmap, index) :=
          mergeRefs blkid total refs.keys.length ((inOrder refs).map Prod.fst) (m.refmap, m.index)
        { ext := update m.ext o ⟨-1, some (refs.erase blkid)⟩
          refmap := refmap
          index := index + 1 }

/-- `merge_block_objects_unlocked(blkid, tbl, refmap, bmp, total, idxstart)` -/
def mergeBlockObjectsUnlocked (tbl : List Obj) (m : Merge) : Merge :=
  tbl.foldl (mergeObject blkid total) m

end Merge

/-- `refset`, a set of references to `ref`, the copy that the loop makes in each round at the same
place. The second one is compared with itself and not inserted, so there is one element, and
behind the loop it refers to the last block of `refmap`. -/
def refsetOf (refmap : StdMap UInt32 RefBitmap) : List RefBitmap :=
  ((inOrder refmap).map Prod.snd).getLast?.toList

/-- The loop over `refset` that fills `pending`. -/
def fillPending (count : ℕ) : List RefBitmap → Bitmap → Finset UInt32 → Finset UInt32
  | [], _, pending => pending
  | r :: rs, tstbmp, pending =>
      let tstbmp := tstbmp.unite (Bitmap.words count) r.bmp
      let pending := insert r.id pending
      if tstbmp.allMarked count then pending else fillPending count rs tstbmp pending

/-- `entrust_mesh_unlocked(blkid, block, pending)`: the objects and `pending`. -/
def entrustMeshUnlocked (blkid : UInt32) (lanesecs roadobjs : List Obj) (ext : Obj → Extinfo) :
    (Obj → Extinfo) × Finset UInt32 :=
  let total := lanesecs.length + roadobjs.length
  if total = 0 then (ext, ∅)
  else
    let total := Bitmap.words total
    let m := mergeBlockObjectsUnlocked blkid total lanesecs ⟨ext, .empty, 0⟩
    let m := mergeBlockObjectsUnlocked blkid total roadobjs m
    -- no object is shared
    if m.index = 0 then (m.ext, ∅)
    else (m.ext, fillPending m.index.toNat (refsetOf m.refmap) (.zeros total) ∅)

/-- `release_mesh(blkid)` -/
def releaseMesh (s : Cache) (blkid : UInt32) : Option (Cache × Reply) :=
  match s.tiles.blocks.find blkid with
  | none => some (s, .released false)
  | some cache => do
      let blk ← blockOf s.tiles cache
      let lanesecs ← objects cache.map blk .laneSec
      let roadobjs ← objects cache.map blk .roadObj
      let (ext, pending) := entrustMeshUnlocked blkid lanesecs roadobjs s.ext
      let meshbuf := update s.meshbuf cache.map
        (update (s.meshbuf cache.map) blkid none)
      return ({ s with ext := ext, meshbuf := meshbuf, expired := s.expired ∪ pending },
        .released true)

/-- `add_tile(buffer, sz)`. The objects of the buffer are at a new address. -/
def addTile (s : Cache) (buffer : Except Error MeshTile) : Option (Cache × Reply) :=
  match TileCache.addTile s.tiles (buffer.map MeshTile.toTileBuffer) with
  | none => none
  | some (tiles, ret) =>
      let addr := alloc s.tiles
      let mesh := fun id =>
        s.mesh id && (s.tiles.blocks.find id).isSome && (tiles.blocks.find id).isSome
      match buffer with
      | .error _ => some ({ s with tiles := tiles, mesh := mesh }, .tile ret)
      | .ok tile =>
          some ({ s with
            tiles := tiles
            data := fun o => if o.map = addr then tile.objData o.kind o.idx else s.data o
            ext := fun o => if o.map = addr then .new else s.ext o
            meshbuf := update s.meshbuf addr fun _ => none
            mesh := mesh }, .tile ret)

inductive Call where
  | addTile (buffer : Except Error MeshTile)
  | getMesh (blkid : UInt32) (outside : Bool)
  | releaseMesh (blkid : UInt32)

def step (s : Cache) : Call → Option (Cache × Reply)
  | .addTile buffer => addTile s buffer
  | .getMesh blkid outside => getMesh s blkid outside
  | .releaseMesh blkid => releaseMesh s blkid

end V2I.TileMesh
