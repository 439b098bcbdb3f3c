import V2I.Lib.Double
import V2I.Lib.Machine
import V2I.Lib.Records
import V2I.OsmParser.OsmMap

/-!
# V2I.OsmParser.Planning

The planning map (`planning_map`): levels of blocks with their nodes and edges, as they are
generated, written to the file and loaded from it. The file is the records that `fwrite` puts one
behind the other, read at the addresses that the records have for each other.

The level table also has fields that are never set; they are left out, as are the kd-trees.
-/

namespace V2I.OsmParser

open OsmMap (toInt)

/-- A `planning_map_node*`: the node at a position in its block, or one of its own with a block id
and an index, which the loader makes for the ends of an edge. -/
inductive NodePtr where
  | placed (block index : ℕ)
  | fresh (blockid inblockindex : ℕ)
  deriving DecidableEq

variable (F : Type)

structure PlanningMapEdge where
  uid : ℕ
  startNode : NodePtr
  endNode : NodePtr
  distance : F
  weight : F
  deriving DecidableEq

structure PlanningMapNode where
  uid : ℤ
  lat : F
  lon : F
  blockid : ℕ
  inblockindex : ℕ
  edgelist : List (PlanningMapEdge F)
  deriving DecidableEq

structure PlanningMapBlock where
  id : ℕ
  minlat : F
  minlon : F
  maxlat : F
  maxlon : F
  nodelist : List (PlanningMapNode F)
  deriving DecidableEq

/-- `planning_map_level`; the tree has the places of the nodes by their uids. -/
structure PlanningMapLevel where
  level : ℕ
  row : ℤ
  col : ℤ
  latstep : F
  lonstep : F
  minlat : F
  maxlat : F
  minlon : F
  maxlon : F
  gblAvlnode : List (ℤ × ℕ × ℕ)
  blocks : List (PlanningMapBlock F)
  deriving DecidableEq

/-- `_level` -/
abbrev PlanningMap := List (PlanningMapLevel F)

structure MapScope where
  minlat : F
  minlon : F
  maxlat : F
  maxlon : F

/-- A reference of a node, with the ids of the way's node set and which are key nodes. -/
structure NodeWayref where
  isOneway : Bool
  ndrefIndex : ℕ
  nodeSet : List (ℤ × Bool)

/-- An `osm_node` -/
structure OsmNode where
  id : ℤ
  lat : F
  lon : F
  isKeynode : Bool
  wayrefList : List NodeWayref

variable {F}

/-! ## Generating -/

section Generate

variable [Double F]

open Double

def le (x y : F) : Bool := lt x y || eq x y

/-- A block of `generate_level` -/
def generateBlock (scope : MapScope F) (latstep lonstep : F) (col i j : ℕ) : PlanningMapBlock F :=
  let maxlat := ofInt (i + 1) * latstep + scope.minlat
  let maxlon := ofInt (j + 1) * lonstep + scope.minlon
  { id := i * col + j
    minlat := ofInt i * latstep + scope.minlat
    minlon := ofInt j * lonstep + scope.minlon
    maxlat := if lt scope.maxlat maxlat then scope.maxlat else maxlat
    maxlon := if lt scope.maxlon maxlon then scope.maxlon else maxlon
    nodelist := [] }

/-- `generate_level`, none where the number of its blocks is no `int`. -/
def generateLevel (scope : MapScope F) (row col lvlid : ℤ) : Option (PlanningMapLevel F) :=
  if row * col < -2 ^ 31 ∨ 2 ^ 31 ≤ row * col then none
  else
    let latstep := fabs (scope.maxlat - scope.minlat) / ofInt row
    let lonstep := fabs (scope.maxlon - scope.minlon) / ofInt col
    some
      { level := (lvlid % 2 ^ 8).toNat
        row, col, latstep, lonstep
        minlat := scope.minlat
        maxlat := scope.maxlat
        minlon := scope.minlon
        maxlon := scope.maxlon
        gblAvlnode := []
        blocks := (List.range row.toNat).flatMap fun i =>
          (List.range col.toNat).map fun j =>
            generateBlock scope latstep lonstep col.toNat i j }

/-- `get_level`: the last level with the id. -/
def getLevel (m : PlanningMap F) (lvlid : ℤ) : Option ℕ :=
  ((List.range m.length).filter fun i => m[i]?.any fun lvl => lvl.level == lvlid).getLast?

namespace PlanningMapLevel

/-- `find_block`: none where it fails, and no block where it leaves the pointer null. -/
def findBlock (lvl : PlanningMapLevel F) (lat lon : F) : Option (Option ℕ) :=
  if lt lvl.maxlat lat || lt lvl.maxlon lon || lt lat lvl.minlat || lt lon lvl.minlon then none
  else if lvl.blocks = [] then none
  else
    some (lvl.blocks.findIdx? fun blk =>
      le lat blk.maxlat && le blk.minlat lat && le lon blk.maxlon && le blk.minlon lon)

/-- A node by its uid in `_gbl_avlnode` -/
def find (lvl : PlanningMapLevel F) (uid : ℤ) : Option (ℕ × ℕ) :=
  (lvl.gblAvlnode.find? fun p => p.1 == uid).map Prod.snd

def modifyBlock (lvl : PlanningMapLevel F) (b : ℕ)
    (f : PlanningMapBlock F → PlanningMapBlock F) : PlanningMapLevel F :=
  { lvl with blocks := lvl.blocks.modify b f }

/-- The node that `generate_node` adds to a block. -/
def newNode (node : OsmNode F) (blk : PlanningMapBlock F) : PlanningMapNode F where
  uid := node.id
  lat := node.lat
  lon := node.lon
  blockid := blk.id
  inblockindex := blk.nodelist.length % 2 ^ 32
  edgelist := []

/-- `generate_node`, none where it follows a null pointer. -/
def generateNode (lvl : PlanningMapLevel F) (node : OsmNode F) : Option (PlanningMapLevel F) :=
  if node.isKeynode then
    match lvl.findBlock node.lat node.lon with
    | none => some lvl
    | some none => none
    | some (some b) =>
        match lvl.blocks[b]? with
        | none => none
        | some blk =>
            some { lvl with
              blocks := lvl.blocks.set b { blk with nodelist := blk.nodelist ++ [newNode node blk] }
              gblAvlnode :=
                if (lvl.find node.id).isSome then lvl.gblAvlnode
                else lvl.gblAvlnode ++ [(node.id, b, blk.nodelist.length)] }
  else some lvl

/-- The next key node of a way that is not the node itself. -/
def nextNode (lvl : PlanningMapLevel F) (uid : ℤ) : List (ℤ × Bool) → Option (ℕ × ℕ)
  | [] => none
  | (nextuid, isKeynode) :: rest =>
      if isKeynode then
        match lvl.find nextuid with
        | none => none
        | some next => if nextuid = uid then lvl.nextNode uid rest else some next
      else lvl.nextNode uid rest

/-- `add_edge` to the node at a place. -/
def addEdge (lvl : PlanningMapLevel F) (node : ℕ × ℕ) (edge : PlanningMapEdge F) :
    PlanningMapLevel F :=
  lvl.modifyBlock node.1 fun blk => { blk with
    nodelist := blk.nodelist.modify node.2 fun n => { n with edgelist := n.edgelist ++ [edge] } }

def nodeAt (lvl : PlanningMapLevel F) (block index : ℕ) : Option (PlanningMapNode F) :=
  lvl.blocks[block]?.bind fun blk => blk.nodelist[index]?

/-- The uid of the node that is pointed to; a node of its own has none. -/
def uidOf (lvl : PlanningMapLevel F) : NodePtr → Option ℤ
  | .placed block index => (lvl.nodeAt block index).map (·.uid)
  | .fresh _ _ => none

variable (distance : F → F → F → F → F)

/-- The edges that `generate_edge` makes for one reference of a node. -/
def generateWayref (lvl : PlanningMapLevel F) (uid : ℤ) (node : ℕ × ℕ) (wref : NodeWayref) :
    PlanningMapLevel F :=
  match lvl.nextNode uid (wref.nodeSet.drop (wref.ndrefIndex + 1)) with
  | none => lvl
  | some next =>
      match lvl.nodeAt node.1 node.2, lvl.nodeAt next.1 next.2 with
      | some n, some n' =>
          let d := distance n.lat n.lon n'.lat n'.lon
          let lvl := lvl.addEdge node
            ⟨0, .placed node.1 node.2, .placed next.1 next.2, d, d⟩
          if wref.isOneway then lvl
          else lvl.addEdge next ⟨0, .placed next.1 next.2, .placed node.1 node.2, d, d⟩
      | _, _ => lvl

/-- `generate_edge` in one level -/
def generateEdge (lvl : PlanningMapLevel F) (node : OsmNode F) : PlanningMapLevel F :=
  match lvl.find node.id with
  | none => lvl
  | some place =>
      node.wayrefList.foldl (fun lvl wref => lvl.generateWayref distance node.id place wref) lvl

end PlanningMapLevel

/-- A call that builds the map. -/
inductive PlanningCall (F : Type) where
  | generateLevel (scope : MapScope F) (row col lvlid : ℤ)
  | generateNode (lvlid : ℤ) (node : OsmNode F)
  | generateEdge (node : OsmNode F)

/-- One call: none where it follows a pointer to nothing or leaves the `int`s. -/
def planningStep (distance : F → F → F → F → F) (m : PlanningMap F) :
    PlanningCall F → Option (PlanningMap F × Unit)
  | .generateLevel scope row col lvlid =>
      (generateLevel scope row col lvlid).map fun lvl => (m ++ [lvl], ())
  | .generateNode lvlid node =>
      match getLevel m lvlid with
      | none => none
      | some i =>
          match m[i]? with
          | none => none
          | some lvl => (lvl.generateNode node).map fun lvl => (m.set i lvl, ())
  | .generateEdge node => some (m.map fun lvl => lvl.generateEdge distance node, ())

/-- The maps that these calls build. -/
def Built (distance : F → F → F → F → F) (m : PlanningMap F) : Prop :=
  ∃ calls rs, Machine.run (planningStep distance) [] calls = some (m, rs)

end Generate

/-! ## The file -/

/-- `arridx_t`: 24 bits of a block id and 40 bits of an index. -/
structure Arridx where
  blkid : ℕ
  index : ℕ
  deriving DecidableEq

def toArridx (blkid index : ℕ) : Arridx := ⟨blkid % 2 ^ 24, index % 2 ^ 40⟩

variable (F) in
structure FileLevel where
  level : ℕ
  row : ℤ
  col : ℤ
  latstep : F
  lonstep : F
  minlat : F
  maxlat : F
  minlon : F
  maxlon : F
  blockCount : ℤ
  startOfBlockTable : ℕ

variable (F) in
structure FileBlockinfo where
  id : ℕ
  minlat : F
  minlon : F
  maxlat : F
  maxlon : F
  kdtreeCount : ℤ
  startOfKdtreeTable : ℕ
  nodeCount : ℤ
  startOfNodeTable : ℕ

variable (F) in
structure FileNodeinfo where
  uid : ℤ
  lat : F
  lon : F
  blockid : ℕ
  edgeCount : ℤ
  startOfEdgeTable : ℕ

variable (F) in
structure FileEdge where
  uid : ℕ
  startNode : Arridx
  endNode : Arridx
  distance : F
  weight : F

variable (F) in
/-- What is written by one `fwrite`. -/
inductive FileRecord where
  | header (levelCount : ℤ) (startOfLevelTable : ℕ)
  | level (l : FileLevel F)
  | blockinfo (b : FileBlockinfo F)
  | nodeinfo (n : FileNodeinfo F)
  | edge (e : FileEdge F)

/-- `sizeof` of the packed structures -/
def FileRecord.size : FileRecord F → ℕ
  | .header _ _ => 28
  | .level _ => 105
  | .blockinfo _ => 64
  | .nodeinfo _ => 44
  | .edge _ => 40

/-- `sizeof(planning_map_file_node_kdtree)` -/
def sizeofKdtree : ℕ := 52

/-! ## Writing -/

/-- `serial_level`, from the start of the block table of the first level. -/
def serialLevel : ℕ → PlanningMap F → List (FileLevel F)
  | _, [] => []
  | blksz, lvl :: lvls =>
      { level := lvl.level
        row := lvl.row
        col := lvl.col
        latstep := lvl.latstep
        lonstep := lvl.lonstep
        minlat := lvl.minlat
        maxlat := lvl.maxlat
        minlon := lvl.minlon
        maxlon := lvl.maxlon
        blockCount := toInt lvl.blocks.length
        startOfBlockTable := blksz } :: serialLevel (blksz + 64 * lvl.blocks.length) lvls

/-- `serial_block`, with the number of nodes in the blocks before. -/
def serialBlock (startAddr : ℕ) : ℕ → List (PlanningMapBlock F) → List (FileBlockinfo F)
  | _, [] => []
  | nodecountsz, blk :: blks =>
      { id := blk.id
        minlat := blk.minlat
        minlon := blk.minlon
        maxlat := blk.maxlat
        maxlon := blk.maxlon
        kdtreeCount := toInt blk.nodelist.length
        startOfKdtreeTable := sizeofKdtree * nodecountsz + startAddr
        nodeCount := toInt blk.nodelist.length
        startOfNodeTable := 44 * nodecountsz + startAddr } ::
        serialBlock startAddr (nodecountsz + blk.nodelist.length) blks

/-- `serial_nodes`, from the start of the edge table of the first node. -/
def serialNodes : ℕ → List (PlanningMapNode F) → List (FileNodeinfo F)
  | _, [] => []
  | edgestartsz, node :: nodes =>
      { uid := node.uid
        lat := node.lat
        lon := node.lon
        blockid := node.blockid
        edgeCount := toInt node.edgelist.length
        startOfEdgeTable := edgestartsz } ::
        serialNodes (edgestartsz + 40 * node.edgelist.length) nodes

namespace PlanningMapLevel

/-- The block id and the index of the node that is pointed to; no pointer of a map dangles. -/
def arridx (lvl : PlanningMapLevel F) : NodePtr → Arridx
  | .placed block index =>
      match lvl.nodeAt block index with
      | none => toArridx 0 0
      | some node => toArridx node.blockid node.inblockindex
  | .fresh blockid inblockindex => toArridx blockid inblockindex

/-- `generte_file_edge` -/
def fileEdge (lvl : PlanningMapLevel F) (e : PlanningMapEdge F) : FileEdge F where
  uid := e.uid
  startNode := lvl.arridx e.startNode
  endNode := lvl.arridx e.endNode
  distance := e.distance
  weight := e.weight

def nodes (lvl : PlanningMapLevel F) : List (PlanningMapNode F) :=
  lvl.blocks.flatMap PlanningMapBlock.nodelist

/-- `serial_edges` in one level -/
def serialEdges (lvl : PlanningMapLevel F) : List (FileEdge F) :=
  lvl.nodes.flatMap fun node => node.edgelist.map lvl.fileEdge

end PlanningMapLevel

/-- `serial_planningmap` -/
def serialPlanningmap (m : PlanningMap F) : List (FileRecord F) :=
  let blocks := m.flatMap PlanningMapLevel.blocks
  let nodes := m.flatMap PlanningMapLevel.nodes
  let blockStart := 28 + 105 * m.length
  let nodeStart := blockStart + 64 * blocks.length
  let edgeStart := nodeStart + 44 * nodes.length
  .header (toInt m.length) 28 :: ((serialLevel blockStart m).map .level ++
    ((serialBlock nodeStart 0 blocks).map .blockinfo ++
    ((serialNodes edgeStart nodes).map .nodeinfo ++
    (m.flatMap PlanningMapLevel.serialEdges).map .edge)))

/-! ## Loading -/

section Load

variable (file : List (FileRecord F))

def recordAt (addr : ℕ) : Option (FileRecord F) := Records.recordAt FileRecord.size file addr

/-- `generate_mapedge`: the ends have nodes of their own. -/
def generateMapedge (e : FileEdge F) : PlanningMapEdge F where
  uid := e.uid
  startNode := .fresh e.startNode.blkid (e.startNode.index % 2 ^ 32)
  endNode := .fresh e.endNode.blkid (e.endNode.index % 2 ^ 32)
  distance := e.distance
  weight := e.weight

/-- `deserial_edges`, none where there is no record of an edge. -/
def deserialEdges : ℕ → ℕ → Option (List (PlanningMapEdge F))
  | 0, _ => some []
  | n + 1, startPost =>
      match recordAt file startPost with
      | some (.edge e) => (deserialEdges n (startPost + 40)).map (generateMapedge e :: ·)
      | _ => none

/-- `deserial_nodes`, with the number of nodes that the block has: a node gets its index when it
is in the block. -/
def deserialNodes : ℕ → ℕ → ℕ → Option (List (PlanningMapNode F))
  | 0, _, _ => some []
  | n + 1, startPost, nodecnt =>
      match recordAt file startPost with
      | some (.nodeinfo f) =>
          match deserialEdges file f.edgeCount.toNat f.startOfEdgeTable with
          | none => none
          | some edges => (deserialNodes n (startPost + 44) (nodecnt + 1)).map
              (⟨f.uid, f.lat, f.lon, f.blockid, (nodecnt + 1) % 2 ^ 32, edges⟩ :: ·)
      | _ => none

/-- `deserial_block` -/
def deserialBlock : ℕ → ℕ → Option (List (PlanningMapBlock F))
  | 0, _ => some []
  | n + 1, startPost =>
      match recordAt file startPost with
      | some (.blockinfo f) =>
          match deserialNodes file f.nodeCount.toNat f.startOfNodeTable 0 with
          | none => none
          | some nodes => (deserialBlock n (startPost + 64)).map
              (⟨f.id, f.minlat, f.minlon, f.maxlat, f.maxlon, nodes⟩ :: ·)
      | _ => none

namespace PlanningMapLevel

/-- `find_edge_block_node`, for an `int` block id and index: a negative id is a large `size_t`. -/
def findEdgeBlockNode (lvl : PlanningMapLevel F) (blkid nodeindex : ℤ) : Option NodePtr :=
  if lvl.blocks = [] then none
  else if (blkid % 2 ^ 64).toNat > lvl.blocks.length - 1 then none
  else
    match lvl.blocks.findIdx? fun blk => (blk.id : ℤ) == blkid % 2 ^ 64 with
    | none => none
    | some b =>
        if 0 ≤ nodeindex ∧ (lvl.nodeAt b nodeindex.toNat).isSome then
          some (.placed b nodeindex.toNat)
        else none

/-- One end of an edge in `find_edge_node`. -/
def findEnd (lvl : PlanningMapLevel F) : NodePtr → NodePtr
  | .fresh blockid inblockindex =>
      (lvl.findEdgeBlockNode (toInt blockid) (toInt inblockindex)).getD
        (.fresh blockid inblockindex)
  | p => p

/-- `create_planning_map_edge` -/
def createPlanningMapEdge (lvl : PlanningMapLevel F) : PlanningMapLevel F :=
  { lvl with
    blocks := lvl.blocks.map fun blk => { blk with
      nodelist := blk.nodelist.map fun node => { node with
        edgelist := node.edgelist.map fun e => { e with
          startNode := lvl.findEnd e.startNode
          endNode := lvl.findEnd e.endNode } } } }

end PlanningMapLevel

/-- `deserial_level`: the loaded level has no tree. -/
def deserialLevel : ℕ → ℕ → Option (PlanningMap F)
  | 0, _ => some []
  | n + 1, lvladdr =>
      match recordAt file lvladdr with
      | some (.level f) =>
          match deserialBlock file f.blockCount.toNat f.startOfBlockTable with
          | none => none
          | some blocks =>
              let lvl : PlanningMapLevel F := ⟨f.level, f.row, f.col, f.latstep, f.lonstep,
                f.minlat, f.maxlat, f.minlon, f.maxlon, [], blocks⟩
              (deserialLevel n (lvladdr + 105)).map (lvl.createPlanningMapEdge :: ·)
      | _ => none

/-- `deserial_planningmap` -/
def deserialPlanningmap : Option (PlanningMap F) :=
  match recordAt file 0 with
  | some (.header levelCount startOfLevelTable) =>
      deserialLevel file levelCount.toNat startOfLevelTable
  | _ => none

end Load

end V2I.OsmParser
