import Mathlib.Algebra.GroupWithZero.Nat
import Mathlib.Algebra.Ring.Int.Defs
import Mathlib.Data.List.Range

/-!
# V2I.OsmParser.OsmMap

The map of the OSM parser (`osm_map`) from the end of `append` through `finalize_highway` and
`merge_ways`: the ids in the node sets of the highways become nodes, each with a reference to its
way and position, and one-way roads that continue each other are put together.

Objects are known by their places: a node by its id in the node tree, a way by its number in the
file, a reference by the way and the position that it is made for.
-/

namespace V2I.OsmParser

open Function

abbrev NodeId := ℤ

abbrev WayPtr := ℕ

abbrev WayrefPtr := WayPtr × ℕ

/-- An entry of a `node_set`: first the id as it stands in the file, then a node. -/
inductive NodeRef where
  | id (nid : NodeId)
  | node (nid : NodeId)
  deriving DecidableEq

/-- `attr` of an `osm_way` -/
structure WayAttr where
  isOneway : Bool
  isHighway : Bool
  isBridge : Bool
  closeLoop : Bool
  lanes : BitVec 5
  maxspeed : BitVec 8
  highwayType : BitVec 8
  deriving DecidableEq

/-- `osm_way` -/
structure OsmWay where
  name : Option String
  attr : WayAttr
  nodeSet : List NodeRef
  wrefList : List WayrefPtr
  deriving DecidableEq

namespace OsmWay

/-- `same_type` -/
def sameType (way1 way2 : OsmWay) : Bool :=
  way1.attr.isOneway == way2.attr.isOneway && way1.attr.isHighway == way2.attr.isHighway &&
    way1.attr.isBridge == way2.attr.isBridge && way1.attr.lanes == way2.attr.lanes &&
    way1.attr.maxspeed == way2.attr.maxspeed && way1.attr.highwayType == way2.attr.highwayType

/-- `way_could_merge` -/
def wayCouldMerge (way1 way2 : OsmWay) : Bool :=
  if way1.attr.closeLoop || way2.attr.closeLoop then false
  else
    match way1.name, way2.name with
    | none, none => way1.sameType way2
    | some name1, some name2 => name1 == name2 && way1.sameType way2
    | _, _ => false

/-- The pairs of consecutive nodes, with the closing pair of a close loop. -/
def pairs (way : OsmWay) : List (NodeRef × NodeRef) :=
  way.nodeSet.zip way.nodeSet.tail ++
    if way.attr.closeLoop then (way.nodeSet.getLast?.toList).zip way.nodeSet.head?.toList else []

end OsmWay

/-- `osm_wayref` -/
structure OsmWayref where
  way : WayPtr
  ndrefIndex : ℕ
  deriving DecidableEq

/-- `osm_map`, as far as the highways and their nodes go: `wayrefList` is that of each node. -/
structure OsmMap where
  nodeTree : List NodeId
  way : WayPtr → Option OsmWay
  wayref : WayrefPtr → Option OsmWayref
  wayrefList : NodeId → List WayrefPtr
  highwayList : List WayPtr
  highwayNodeList : List NodeId
  highwayCount : ℕ
  highwayNodeCount : ℕ

/-! ## The file -/

/-- A `way` element with a `highway` tag. -/
structure Highway where
  name : Option String
  isOneway : Bool
  isBridge : Bool
  lanes : BitVec 5
  maxspeed : BitVec 8
  highwayType : BitVec 8
  nd : List NodeId
  deriving DecidableEq

/-- `create_way` -/
def Highway.createWay (h : Highway) : OsmWay where
  name := h.name
  attr := ⟨h.isOneway, true, h.isBridge, false, h.lanes, h.maxspeed, h.highwayType⟩
  nodeSet := h.nd.map .id
  wrefList := []

namespace OsmMap

/-- The map after `append`. -/
def append (nodes : List NodeId) (highways : List Highway) : OsmMap where
  nodeTree := nodes
  way w := highways[w]?.map Highway.createWay
  wayref _ := none
  wayrefList _ := []
  highwayList := List.range highways.length
  highwayNodeList := []
  highwayCount := highways.length
  highwayNodeCount := 0

/-! ## Ways and nodes -/

def setWay (s : OsmMap) (w : WayPtr) (way : OsmWay) : OsmMap :=
  { s with way := update s.way w (some way) }

/-- A new `osm_wayref` of the way for an entry that is a node of the tree now. -/
def addWayref (s : OsmMap) (w : WayPtr) (way : OsmWay) (i : ℕ) (nid : NodeId) : OsmMap where
  nodeTree := s.nodeTree
  way := update s.way w (some { way with
    nodeSet := way.nodeSet.set i (.node nid)
    wrefList := way.wrefList ++ [(w, i)] })
  wayref := update s.wayref (w, i) (some ⟨w, i⟩)
  wayrefList := update s.wayrefList nid (s.wayrefList nid ++ [(w, i)])
  highwayList := s.highwayList
  highwayNodeList :=
    if nid ∈ s.highwayNodeList then s.highwayNodeList else s.highwayNodeList ++ [nid]
  highwayCount := s.highwayCount
  highwayNodeCount := if nid ∈ s.highwayNodeList then s.highwayNodeCount else s.highwayNodeCount + 1

/-- The body of the loop of `associate_node`. -/
def associateEntry (w : WayPtr) (s : OsmMap) (i : ℕ) : OsmMap :=
  match s.way w with
  | none => s
  | some way =>
      match way.nodeSet[i]? with
      | some (.id nid) => if nid ∈ s.nodeTree then s.addWayref w way i nid else s
      | _ => s

/-- The value of a size as an `int`. -/
def toInt (n : ℕ) : ℤ :=
  if n % 2 ^ 32 < 2 ^ 31 then (n % 2 ^ 32 : ℕ) else (n % 2 ^ 32 : ℕ) - 2 ^ 32

/-- The way as a close loop without its last node, where it is one, and the count of its nodes. -/
def detectLoop (way : OsmWay) (count : ℕ) : OsmWay × ℕ :=
  if way.nodeSet[0]? = way.nodeSet[count - 1]? ∧ 1 < count then
    ({ way with
      attr := { way.attr with closeLoop := true }
      nodeSet := way.nodeSet.dropLast }, count - 1)
  else (way, count)

/-- `associate_node`, none where it reads outside of the set. -/
def associateNode (s : OsmMap) (w : WayPtr) : Option OsmMap :=
  match s.way w with
  | none => none
  | some way =>
      let count := toInt way.nodeSet.length
      if way.nodeSet = [] ∨ count < 1 then none
      else
        let (way, count) := detectLoop way count.toNat
        some ((List.range count).foldl (associateEntry w) (s.setWay w way))

/-- `finalize_highway` -/
def finalizeHighway (s : OsmMap) : Option OsmMap := s.highwayList.foldlM associateNode s

/-! ## Merging -/

/-- `fan_inout` -/
inductive FanInout where
  | fanIn
  | fanOut

/-- The way of a reference that `get_next_inout_wayref` stops at. -/
def inoutWay (s : OsmMap) (inout : FanInout) (r : WayrefPtr) : Option WayPtr :=
  match s.wayref r with
  | none => none
  | some ref =>
      match s.way ref.way with
      | none => none
      | some way =>
          if way.attr.closeLoop || !way.attr.isOneway then none
          else
            match inout with
            | .fanIn => if ref.ndrefIndex + 1 = way.nodeSet.length then some ref.way else none
            | .fanOut => if ref.ndrefIndex = 0 then some ref.way else none

def couldMerge (s : OsmMap) (w1 w2 : WayPtr) : Bool :=
  match s.way w1, s.way w2 with
  | some way1, some way2 => way1.wayCouldMerge way2
  | _, _ => false

/-- The inner loop of `merge_ways`: the only way to merge with, over the references of a node. -/
def mergeTarget (s : OsmMap) (w1 : WayPtr) : Option WayPtr → List WayrefPtr → Option WayPtr
  | target, [] => target
  | target, r :: rs =>
      match s.inoutWay .fanOut r with
      | none => s.mergeTarget w1 target rs
      | some w2 =>
          if s.couldMerge w1 w2 then
            match target with
            | none => s.mergeTarget w1 (some w2) rs
            | some _ => none
          else s.mergeTarget w1 target rs

/-- The first way with the nodes of the second behind its own, and whether it closes. -/
def joinWays (way1 way2 : OsmWay) : OsmWay :=
  let nodeSet := way1.nodeSet ++ way2.nodeSet
  let way := { way1 with nodeSet, wrefList := way1.wrefList ++ way2.wrefList }
  if nodeSet.getLast? = nodeSet.head? then
    { way with attr := { way.attr with closeLoop := true }, nodeSet := nodeSet.dropLast }
  else way

/-- `merge_roads`, none where its assertion fails or it has no end: the references of a way that is
merged with itself move to the end of their own list. -/
def mergeRoads (s : OsmMap) (w1 w2 : WayPtr) : Option OsmMap :=
  match s.way w1, s.way w2 with
  | some way1, some way2 =>
      if way1.nodeSet.getLast? ≠ way2.nodeSet.head? ∨ w1 = w2 then none
      else
        -- the size after the nodes of the second way are added
        let size := way1.nodeSet.length + way2.nodeSet.length
        some { s with
          way := update (update s.way w2 none) w1 (some (joinWays way1 way2))
          wayref := fun r =>
            if r ∈ way2.wrefList then
              (s.wayref r).map fun ref => ⟨w1, (ref.ndrefIndex + size) % 2 ^ 32⟩
            else s.wayref r
          highwayList := s.highwayList.erase w2
          highwayCount := s.highwayCount - 1 }
  | _, _ => none

/-- The middle loop of `merge_ways`, over the rest of the references of a node, with the map after
each `merge_roads`. -/
def mergeNode (node : NodeId) : List WayrefPtr → OsmMap → Option (OsmMap × List OsmMap)
  | [], s => some (s, [])
  | r :: rs, s =>
      match s.inoutWay .fanIn r with
      | none => mergeNode node rs s
      | some w1 =>
          match s.mergeTarget w1 none (s.wayrefList node) with
          | none => mergeNode node rs s
          | some w2 =>
              match s.mergeRoads w1 w2 with
              | none => none
              | some s' => (mergeNode node rs s').map fun (t, ss) => (t, s' :: ss)

/-- The outer loop of `merge_ways`, over the rest of the nodes. -/
def mergeNodes : List NodeId → OsmMap → Option (OsmMap × List OsmMap)
  | [], s => some (s, [])
  | node :: nodes, s =>
      match mergeNode node (s.wayrefList node) s with
      | none => none
      | some (s', ss) => (mergeNodes nodes s').map fun (t, ss') => (t, ss ++ ss')

/-- `merge_ways`, with the map after each `merge_roads`. -/
def mergeWays (s : OsmMap) : Option (OsmMap × List OsmMap) := mergeNodes s.highwayNodeList s

end OsmMap

end V2I.OsmParser
