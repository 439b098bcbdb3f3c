import V2I.Lib.Neighbours
import V2I.OsmParser.OsmMap.Merge
import V2I.OsmParser.Planning

/-!
# V2I.OsmParser.Planning.Edges

The edges of a level after one `generate_edge` for every node of an OSM map: a reference of a node
makes the edges to the next key node of its way.
-/

namespace V2I.OsmParser

open Neighbours List Option

variable {F : Type}

/-! ## The map -/

section Map

variable (s : OsmMap) (isKeynode : NodeId → Bool)

/-- An entry of a `node_set` as it is read; what is still an id points to no node. -/
def nodeOf : NodeRef → Option (NodeId × Bool)
  | .node n => some (n, isKeynode n)
  | .id _ => none

/-- The references of a node, each to its way and position. -/
def refs (n : NodeId) : List OsmWayref := (s.wayrefList n).filterMap s.wayref

/-- The `osm_node` with the ways of its references. -/
def osmNode (lat lon : NodeId → F) (n : NodeId) : OsmNode F where
  id := n
  lat := lat n
  lon := lon n
  isKeynode := isKeynode n
  wayrefList := (refs s n).filterMap fun ref => (s.way ref.way).map fun way =>
    ⟨way.attr.isOneway, ref.ndrefIndex, way.nodeSet.filterMap (nodeOf isKeynode)⟩

/-- Ways and references fit: every position of a way has one reference, and it is a reference of the
node at the position. -/
structure Referenced : Prop where
  ways : s.highwayList.Nodup
  once : ∀ n, (refs s n).Nodup
  owner : ∀ n ref, ref ∈ refs s n ↔ ref.way ∈ s.highwayList ∧
    ∃ way, s.way ref.way = some way ∧ way.nodeSet[ref.ndrefIndex]? = some (.node n)
  nodes : ∀ w ∈ s.highwayList, ∃ way, s.way w = some way ∧
    ∀ e ∈ way.nodeSet, ∃ n, e = .node n

/-- The key nodes along a way. -/
def keynodes (way : OsmWay) : List NodeId :=
  way.nodeSet.filterMap fun e => (nodeOf isKeynode e).bind fun n => if n.2 then some n.1 else none

/-- The last and the first key node of a close loop, when they differ. -/
def closing (way : OsmWay) : List (NodeId × NodeId) :=
  match (keynodes isKeynode way).getLast?, (keynodes isKeynode way).head? with
  | some u, some v => if way.attr.closeLoop && u != v then [(u, v)] else []
  | _, _ => []

/-- The connections in the direction of a way and, unless it is one-way, back. -/
def bothWays (isOneway : Bool) (l : List (NodeId × NodeId)) : List (NodeId × NodeId) :=
  l.flatMap fun p => if isOneway then [p] else [p, p.swap]

/-- What a list of connections of each way gives for all ways. -/
def ofWays (f : OsmWay → List (NodeId × NodeId)) : List (NodeId × NodeId) :=
  s.highwayList.flatMap fun w =>
    ((s.way w).map fun way => bothWays way.attr.isOneway (f way)).getD []

end Map

/-! ## The level -/

namespace PlanningMapLevel

/-- The uids at both ends of the edges, each behind the uid of the node that has it in its list. -/
def edges (lvl : PlanningMapLevel F) : List (ℤ × Option ℤ × Option ℤ) :=
  lvl.nodes.flatMap fun n => n.edgelist.map fun e =>
    (n.uid, lvl.uidOf e.startNode, lvl.uidOf e.endNode)

/-- `generate_edge` once for every node -/
def generateEdges (distance : F → F → F → F → F) (nodes : List (OsmNode F))
    (lvl : PlanningMapLevel F) : PlanningMapLevel F :=
  nodes.foldl (fun lvl node => lvl.generateEdge distance node) lvl

/-- `generate_node` for some nodes, none where it follows a null pointer. -/
def generateNodes [Double F] (lvl : PlanningMapLevel F) : List (OsmNode F) →
    Option (PlanningMapLevel F)
  | [] => some lvl
  | node :: nodes => (lvl.generateNode node).bind fun lvl => lvl.generateNodes nodes

/-- A level with nodes and without edges: the tree has places of key nodes. -/
structure WithNodes (isKeynode : NodeId → Bool) (lvl : PlanningMapLevel F) : Prop where
  placed : ∀ n place, lvl.find n = some place →
    ∃ node, lvl.nodeAt place.1 place.2 = some node ∧ node.uid = n
  keynode : ∀ n, lvl.find n ≠ none → isKeynode n = true
  empty : ∀ node ∈ lvl.nodes, node.edgelist = []

/-- The edges that these connections give. -/
def edgesOf (l : List (NodeId × NodeId)) : List (ℤ × Option ℤ × Option ℤ) :=
  l.map fun p => (p.1, some p.1, some p.2)

end PlanningMapLevel

open PlanningMapLevel

/-- The edges are the connections of each two consecutive key nodes of a way, and no others. -/
def Connects (s : OsmMap) (isKeynode : NodeId → Bool) (lvl : PlanningMapLevel F) : Prop :=
  lvl.edges.Perm (edgesOf (ofWays s fun way =>
    steps (keynodes isKeynode way) ++ closing isKeynode way))

/-! ## adding edges -/

namespace PlanningMapLevel

/-- The tree has places of nodes. -/
def Placed (lvl : PlanningMapLevel F) : Prop :=
  ∀ n place, lvl.find n = some place →
    ∃ node, lvl.nodeAt place.1 place.2 = some node ∧ node.uid = n

section AddEdge

variable (lvl : PlanningMapLevel F) (place : ℕ × ℕ) (e : PlanningMapEdge F)

theorem uid_nodeAt_addEdge (b i : ℕ) :
    ((lvl.addEdge place e).nodeAt b i).map (·.uid) = (lvl.nodeAt b i).map (·.uid) := by
  simp only [nodeAt, addEdge, modifyBlock, List.getElem?_modify]
  cases lvl.blocks[b]? with
  | none => simp
  | some blk =>
    by_cases hb : place.1 = b
    · simp only [hb, if_true, Option.map_eq_map, Option.map_some, Option.bind_some,
        List.getElem?_modify]
      cases blk.nodelist[i]? with
      | none => simp
      | some node => by_cases hi : place.2 = i <;> simp [hi]
    · simp [hb]

@[simp]
theorem uidOf_addEdge : (lvl.addEdge place e).uidOf = lvl.uidOf := by
  funext ptr
  cases ptr with
  | placed b i => exact uid_nodeAt_addEdge lvl place e b i
  | fresh _ _ => rfl

theorem placed_addEdge (h : lvl.Placed) : (lvl.addEdge place e).Placed := by
  intro n place' hfind
  obtain ⟨node, hnode, huid⟩ := h n place' hfind
  have hmap := uid_nodeAt_addEdge lvl place e place'.1 place'.2
  rw [hnode, Option.map_some, huid] at hmap
  exact map_eq_some_iff.mp hmap

theorem edges_addEdge {node : PlanningMapNode F} (h : lvl.nodeAt place.1 place.2 = some node) :
    (lvl.addEdge place e).edges.Perm
      ((node.uid, lvl.uidOf e.startNode, lvl.uidOf e.endNode) :: lvl.edges) := by
  obtain ⟨blk, hblk, hnode⟩ := bind_eq_some_iff.mp h
  unfold edges nodes
  rw [uidOf_addEdge, flatMap_assoc, flatMap_assoc]
  refine perm_flatMap_modify hblk (perm_flatMap_modify hnode ?_)
  rw [map_append]
  exact perm_append_comm

end AddEdge

/-- The level has the same tree and these edges more. -/
structure Adds (lvl lvl' : PlanningMapLevel F) (l : List (NodeId × NodeId)) : Prop where
  tree : lvl'.gblAvlnode = lvl.gblAvlnode
  placed : lvl'.Placed
  edges : lvl'.edges.Perm (edgesOf l ++ lvl.edges)

variable {lvl : PlanningMapLevel F}

theorem Adds.refl (h : lvl.Placed) : Adds lvl lvl [] :=
  ⟨rfl, h, .refl _⟩

variable {l : List (NodeId × NodeId)} {lvl' : PlanningMapLevel F}

theorem Adds.trans {lvl'' : PlanningMapLevel F} {l' : List (NodeId × NodeId)} (h : Adds lvl lvl' l)
    (h' : Adds lvl' lvl'' l') : Adds lvl lvl'' (l ++ l') := by
  refine ⟨h'.tree.trans h.tree, h'.placed, h'.edges.trans ?_⟩
  have happend : edgesOf (l ++ l') = edgesOf l ++ edgesOf l' := map_append
  rw [happend, append_assoc]
  exact (h.edges.append_left _).trans (perm_append_comm_assoc _ _ _)

theorem Adds.find (h : Adds lvl lvl' l) (n : NodeId) : lvl'.find n = lvl.find n := by
  unfold PlanningMapLevel.find
  rw [h.tree]

variable {place : ℕ × ℕ}

/-- An edge between two nodes of the tree. -/
theorem adds_addEdge (h : lvl.Placed) {u v : NodeId} {next : ℕ × ℕ} (hu : lvl.find u = some place)
    (hv : lvl.find v = some next) (uid : ℕ) (d w : F) :
    Adds lvl (lvl.addEdge place ⟨uid, .placed place.1 place.2, .placed next.1 next.2, d, w⟩)
      [(u, v)] := by
  obtain ⟨node, hnode, rfl⟩ := h u place hu
  obtain ⟨node', hnode', rfl⟩ := h v next hv
  refine ⟨rfl, placed_addEdge lvl place _ h, ?_⟩
  have hedges := edges_addEdge lvl place
    ⟨uid, .placed place.1 place.2, .placed next.1 next.2, d, w⟩ hnode
  simpa [uidOf, hnode, hnode', edgesOf] using hedges

/-! ## the next key node -/

/-- The key nodes among entries of a node set. -/
def keyed (l : List (ℤ × Bool)) : List ℤ := l.filterMap fun n => if n.2 then some n.1 else none

theorem nextNode_eq (uid : ℤ) {l : List (ℤ × Bool)} (h : ∀ n ∈ keyed l, lvl.find n ≠ none) :
    lvl.nextNode uid l = (other uid (keyed l)).bind lvl.find := by
  induction l with
  | nil => rfl
  | cons n l ih =>
    obtain ⟨n, isKeynode⟩ := n
    cases isKeynode with
    | false => exact ih h
    | true =>
      have hkeyed : keyed ((n, true) :: l) = n :: keyed l := rfl
      rw [hkeyed, forall_mem_cons] at h
      obtain ⟨next, hnext⟩ := Option.ne_none_iff_exists'.mp h.1
      rw [nextNode, hkeyed, other, if_pos rfl, hnext]
      by_cases hn : n = uid
      · simpa [hn, other] using ih h.2
      · simp [hn, hnext]

/-- The connection to the next key node behind a position. -/
def connection (uid : ℤ) (l : List ℤ) : List (NodeId × NodeId) :=
  ((other uid l).map fun v => (uid, v)).toList

theorem adds_generateWayref (hp : lvl.Placed) (distance : F → F → F → F → F) {uid : ℤ}
    (huid : lvl.find uid = some place) {wref : NodeWayref}
    (h : ∀ n ∈ keyed (wref.nodeSet.drop (wref.ndrefIndex + 1)), lvl.find n ≠ none) :
    Adds lvl (lvl.generateWayref distance uid place wref) (bothWays wref.isOneway
      (connection uid (keyed (wref.nodeSet.drop (wref.ndrefIndex + 1))))) := by
  unfold generateWayref connection
  rw [nextNode_eq uid h]
  cases hother : other uid (keyed (wref.nodeSet.drop (wref.ndrefIndex + 1))) with
  | none => exact Adds.refl hp
  | some v =>
    obtain ⟨next, hv⟩ := Option.ne_none_iff_exists'.mp (h v (mem_of_find?_eq_some hother))
    obtain ⟨n, hn, -⟩ := hp uid place huid
    obtain ⟨n', hn', -⟩ := hp v next hv
    simp only [Option.bind_some, hv, hn, hn']
    have hforward := adds_addEdge hp huid hv 0 (distance n.lat n.lon n'.lat n'.lon)
      (distance n.lat n.lon n'.lat n'.lon)
    by_cases hone : wref.isOneway = true
    · simpa [hone, bothWays] using hforward
    · have hback := adds_addEdge hforward.placed ((hforward.find v).trans hv)
        ((hforward.find uid).trans huid) 0 (distance n.lat n.lon n'.lat n'.lon)
        (distance n.lat n.lon n'.lat n'.lon)
      simpa [hone, bothWays] using hforward.trans hback

/-! ## all nodes -/

/-- The connections that a node makes. -/
def connections (isKeynode : NodeId → Bool) (node : OsmNode F) : List (NodeId × NodeId) :=
  if isKeynode node.id then
    node.wayrefList.flatMap fun wref => bothWays wref.isOneway
      (connection node.id (keyed (wref.nodeSet.drop (wref.ndrefIndex + 1))))
  else []

/-- The tree has the key nodes that the references of these nodes come to, and only key nodes. -/
structure HasKeynodes (isKeynode : NodeId → Bool) (nodes : List (OsmNode F))
    (lvl : PlanningMapLevel F) : Prop where
  keynode : ∀ n, lvl.find n ≠ none → isKeynode n = true
  owners : ∀ node ∈ nodes, isKeynode node.id = true → lvl.find node.id ≠ none
  others : ∀ node ∈ nodes, ∀ wref ∈ node.wayrefList, ∀ n ∈ keyed wref.nodeSet,
    lvl.find n ≠ none

theorem adds_wayrefs {distance : F → F → F → F → F} {uid : ℤ} {wrefs : List NodeWayref}
    (hp : lvl.Placed) (huid : lvl.find uid = some place)
    (h : ∀ wref ∈ wrefs, ∀ n ∈ keyed wref.nodeSet, lvl.find n ≠ none) :
    Adds lvl (wrefs.foldl (fun lvl wref => lvl.generateWayref distance uid place wref) lvl)
      (wrefs.flatMap fun wref => bothWays wref.isOneway
        (connection uid (keyed (wref.nodeSet.drop (wref.ndrefIndex + 1))))) := by
  induction wrefs generalizing lvl with
  | nil => exact Adds.refl hp
  | cons wref wrefs ih =>
    rw [forall_mem_cons] at h
    have hdrop : ∀ n ∈ keyed (wref.nodeSet.drop (wref.ndrefIndex + 1)), lvl.find n ≠ none :=
      fun n hn => h.1 n (((drop_sublist _ _).filterMap _).subset hn)
    have hfirst := adds_generateWayref hp distance huid hdrop
    have hrest := ih hfirst.placed ((hfirst.find uid).trans huid)
      (fun wref' hwref' n hn => by rw [hfirst.find]; exact h.2 wref' hwref' n hn)
    exact hfirst.trans hrest

variable {isKeynode : NodeId → Bool}

theorem adds_generateEdge {node : OsmNode F} (hp : lvl.Placed) (distance : F → F → F → F → F)
    (h : HasKeynodes isKeynode [node] lvl) :
    Adds lvl (lvl.generateEdge distance node) (connections isKeynode node) := by
  unfold generateEdge connections
  by_cases hkey : isKeynode node.id = true
  · obtain ⟨place, hplace⟩ := Option.ne_none_iff_exists'.mp
      (h.owners node mem_cons_self hkey)
    rw [hplace, if_pos hkey]
    exact adds_wayrefs hp hplace (h.others node mem_cons_self)
  · have hnone : lvl.find node.id = none := not_not.mp (mt (h.keynode node.id) hkey)
    rw [hnone, if_neg hkey]
    exact Adds.refl hp

theorem adds_generateEdges {nodes : List (OsmNode F)} (hp : lvl.Placed)
    (distance : F → F → F → F → F) (h : HasKeynodes isKeynode nodes lvl) :
    Adds lvl (lvl.generateEdges distance nodes) (nodes.flatMap (connections isKeynode)) := by
  induction nodes generalizing lvl with
  | nil => exact Adds.refl hp
  | cons node nodes ih =>
    have hhead : HasKeynodes isKeynode [node] lvl :=
      ⟨h.keynode, fun n hn => h.owners n (by simp_all), fun n hn => h.others n (by simp_all)⟩
    have hfirst := adds_generateEdge hp distance hhead
    have hrest : HasKeynodes isKeynode nodes (lvl.generateEdge distance node) := by
      refine ⟨?_, ?_, ?_⟩
      · intro n
        rw [hfirst.find]
        exact h.keynode n
      · intro n hn
        rw [hfirst.find]
        exact h.owners n (mem_cons_of_mem _ hn)
      · intro n hn wref hwref k
        rw [hfirst.find]
        exact h.others n (mem_cons_of_mem _ hn) wref hwref k
    exact hfirst.trans (ih hfirst.placed hrest)

end PlanningMapLevel

/-! ## the connections of the ways -/

section Ways

variable {s : OsmMap} {isKeynode : NodeId → Bool}

theorem bothWays_append (isOneway : Bool) (l l' : List (NodeId × NodeId)) :
    bothWays isOneway (l ++ l') = bothWays isOneway l ++ bothWays isOneway l' :=
  flatMap_append

theorem ofWays_append (f g : OsmWay → List (NodeId × NodeId)) :
    (ofWays s fun way => f way ++ g way).Perm (ofWays s f ++ ofWays s g) := by
  unfold ofWays
  refine List.Perm.trans (.of_eq ?_) (flatMap_append_perm _ _ _).symm
  refine flatMap_congr fun w _ => ?_
  cases s.way w <;> simp [bothWays_append]

theorem ofWays_perm {f g : OsmWay → List (NodeId × NodeId)} (h : ∀ way, (f way).Perm (g way)) :
    (ofWays s f).Perm (ofWays s g) := by
  refine List.Perm.flatMap_left _ fun w _ => ?_
  cases s.way w with
  | none => exact .refl _
  | some way => exact (h way).flatMap_right _

/-- What a reference of a node makes. -/
def contribution (s : OsmMap) (isKeynode : NodeId → Bool) (p : NodeId × OsmWayref) :
    List (NodeId × NodeId) :=
  if isKeynode p.1 then
    ((s.way p.2.way).map fun way => bothWays way.attr.isOneway (connection p.1
      (keyed ((way.nodeSet.filterMap (nodeOf isKeynode)).drop (p.2.ndrefIndex + 1))))).getD []
  else []

theorem connections_osmNode (lat lon : NodeId → F) (n : NodeId) :
    connections isKeynode (osmNode s isKeynode lat lon n) =
      ((refs s n).map fun ref => (n, ref)).flatMap (contribution s isKeynode) := by
  unfold connections osmNode
  rw [flatMap_map]
  by_cases hkey : isKeynode n = true
  · simp only [hkey, if_true]
    induction refs s n with
    | nil => rfl
    | cons ref rs ih =>
      rw [flatMap_cons, ← ih, filterMap_cons]
      cases hway : s.way ref.way <;> simp [contribution, hkey, hway]
  · simp [hkey, contribution]

/-- The node of an entry. -/
def nodeId : NodeRef → Option NodeId
  | .node n => some n
  | .id _ => none

/-- The positions of a way with their nodes. -/
def positions (w : WayPtr) (way : OsmWay) : List (NodeId × OsmWayref) :=
  (List.range way.nodeSet.length).flatMap fun i =>
    ((way.nodeSet[i]?.bind nodeId).map fun n => (n, ⟨w, i⟩)).toList

variable {n : NodeId}

theorem nodeId_eq_some_iff {e : NodeRef} : nodeId e = some n ↔ e = .node n := by
  cases e <;> simp [nodeId]

variable {w : WayPtr}

theorem mem_positions {way : OsmWay} {ref : OsmWayref} :
    (n, ref) ∈ positions w way ↔
      ref.way = w ∧ way.nodeSet[ref.ndrefIndex]? = some (.node n) := by
  have hentry : ∀ i : ℕ, way.nodeSet[i]?.bind nodeId = some n ↔
      way.nodeSet[i]? = some (NodeRef.node n) := by
    intro i
    cases way.nodeSet[i]? <;> simp [nodeId_eq_some_iff]
  unfold positions
  simp only [List.mem_flatMap, mem_range, mem_toList, map_eq_some_iff]
  constructor
  · rintro ⟨i, -, n', hn', heq⟩
    obtain ⟨rfl, rfl⟩ := Prod.mk.inj heq
    exact ⟨rfl, (hentry i).mp hn'⟩
  · rintro ⟨rfl, hi⟩
    exact ⟨ref.ndrefIndex, (List.getElem?_eq_some_iff.mp hi).1, n, (hentry _).mpr hi, rfl⟩

theorem nodup_positions (w : WayPtr) (way : OsmWay) : (positions w way).Nodup := by
  refine nodup_flatMap.mpr ⟨fun i _ => ?_, nodup_range.imp fun {i j} hij => ?_⟩
  · cases (way.nodeSet[i]?.bind nodeId) <;> simp
  · rintro ⟨n, ref⟩ hi hj
    simp only [mem_toList, map_eq_some_iff] at hi hj
    obtain ⟨_, -, hi⟩ := hi
    obtain ⟨_, -, hj⟩ := hj
    obtain ⟨rfl, rfl⟩ := Prod.mk.inj hi
    have hindex := congrArg OsmWayref.ndrefIndex (Prod.mk.inj hj).2
    exact hij hindex.symm

theorem mem_wayPositions {ref : OsmWayref} :
    (n, ref) ∈ ((s.way w).map (positions w)).getD [] ↔ ref.way = w ∧
      ∃ way, s.way w = some way ∧ way.nodeSet[ref.ndrefIndex]? = some (.node n) := by
  cases s.way w with
  | none => simp
  | some way => simp [mem_positions]

/-- Every position of a way has its reference. -/
theorem refs_perm_positions (h : Referenced s) {nodes : List NodeId} (hnodup : nodes.Nodup)
    (hnodes : ∀ n, refs s n ≠ [] → n ∈ nodes) :
    (nodes.flatMap fun n => (refs s n).map fun ref => (n, ref)).Perm
      (s.highwayList.flatMap fun w => ((s.way w).map (positions w)).getD []) := by
  have hleft : (nodes.flatMap fun n => (refs s n).map fun ref => (n, ref)).Nodup := by
    refine nodup_flatMap.mpr ⟨fun n _ => ?_, hnodup.imp fun {n n'} hne => ?_⟩
    · exact (h.once n).map fun _ _ heq => (Prod.mk.inj heq).2
    · rintro p hp hp'
      obtain ⟨_, -, rfl⟩ := mem_map.mp hp
      obtain ⟨_, -, heq⟩ := mem_map.mp hp'
      exact hne (Prod.mk.inj heq).1.symm
  have hright : (s.highwayList.flatMap fun w => ((s.way w).map (positions w)).getD []).Nodup := by
    refine nodup_flatMap.mpr ⟨fun w _ => ?_, h.ways.imp fun {w w'} hne => ?_⟩
    · cases s.way w with
      | none => exact nodup_nil
      | some way => exact nodup_positions w way
    · rintro ⟨n, ref⟩ hp hp'
      exact hne ((mem_wayPositions.mp hp).1.symm.trans (mem_wayPositions.mp hp').1)
  refine (perm_ext_iff_of_nodup hleft hright).mpr ?_
  rintro ⟨n, ref⟩
  have hmem : (n, ref) ∈ (nodes.flatMap fun n => (refs s n).map fun ref => (n, ref)) ↔
      ref ∈ refs s n := by
    simp only [List.mem_flatMap, List.mem_map, Prod.mk.injEq]
    constructor
    · rintro ⟨_, -, _, href, rfl, rfl⟩
      exact href
    · exact fun href => ⟨n, hnodes n (List.ne_nil_of_mem href), ref, href, rfl, rfl⟩
  rw [hmem, h.owner, List.mem_flatMap]
  constructor
  · rintro ⟨hw, hway⟩
    exact ⟨ref.way, hw, mem_wayPositions.mpr ⟨rfl, hway⟩⟩
  · rintro ⟨w, hw, hp⟩
    obtain ⟨rfl, hway⟩ := mem_wayPositions.mp hp
    exact ⟨hw, hway⟩

/-- The connections of the positions of a list of nodes. -/
theorem alongside_connection (isOneway : Bool) (ns : List NodeId) :
    alongside (fun n rest => if isKeynode n then
        bothWays isOneway (connection n (rest.filter isKeynode)) else []) ns =
      bothWays isOneway (nexts (ns.filter isKeynode)) := by
  induction ns with
  | nil => rfl
  | cons n ns ih =>
    rw [alongside, ih]
    by_cases hkey : isKeynode n = true
    · rw [filter_cons_of_pos hkey, nexts, bothWays_append, if_pos hkey]
      rfl
    · rw [filter_cons_of_neg hkey, if_neg hkey, nil_append]

theorem filterMap_nodeOf (ns : List NodeId) :
    (ns.map NodeRef.node).filterMap (nodeOf isKeynode) = ns.map fun n => (n, isKeynode n) := by
  rw [filterMap_map, ← filterMap_eq_map]
  rfl

theorem keyed_map (ns : List NodeId) :
    keyed (ns.map fun n => (n, isKeynode n)) = ns.filter isKeynode := by
  rw [keyed, filterMap_map, ← filterMap_eq_filter]
  refine filterMap_congr fun n _ => ?_
  cases hkey : isKeynode n <;> simp [hkey, Option.guard]

theorem keynodes_eq {way : OsmWay} {ns : List NodeId} (h : way.nodeSet = ns.map NodeRef.node) :
    keynodes isKeynode way = ns.filter isKeynode := by
  rw [keynodes, h, filterMap_map, ← filterMap_eq_filter]
  refine filterMap_congr fun n _ => ?_
  cases hkey : isKeynode n <;> simp [nodeOf, hkey, Option.guard]

theorem exists_nodes {l : List NodeRef} (h : ∀ e ∈ l, ∃ n, e = .node n) :
    ∃ ns : List NodeId, l = ns.map NodeRef.node := by
  induction l with
  | nil => exact ⟨[], rfl⟩
  | cons e l ih =>
    rw [forall_mem_cons] at h
    obtain ⟨n, rfl⟩ := h.1
    obtain ⟨ns, rfl⟩ := ih h.2
    exact ⟨n :: ns, rfl⟩

theorem flatMap_positions (h : Referenced s) (hw : w ∈ s.highwayList) :
    (((s.way w).map (positions w)).getD []).flatMap (contribution s isKeynode) =
      ((s.way w).map fun way =>
        bothWays way.attr.isOneway (nexts (keynodes isKeynode way))).getD [] := by
  obtain ⟨way, hway, hnodes⟩ := h.nodes w hw
  obtain ⟨ns, hns⟩ := exists_nodes hnodes
  rw [hway]
  simp only [Option.map_some, getD_some]
  rw [keynodes_eq hns, ← alongside_connection, ← flatMap_range_eq_alongside, positions,
    flatMap_assoc, hns, length_map]
  refine flatMap_congr fun i _ => ?_
  rw [getElem?_map]
  cases ns[i]? with
  | none => rfl
  | some n =>
    have hmade : contribution s isKeynode (n, ⟨w, i⟩) = if isKeynode n then
        bothWays way.attr.isOneway
          (connection n ((ns.drop (i + 1)).filter isKeynode)) else [] := by
      rw [contribution]
      simp only [hway, Option.map_some, getD_some]
      rw [hns, filterMap_nodeOf, ← map_drop, keyed_map]
    simp [nodeId, hmade]

/-- The connections of all nodes of a map are those of the positions of its ways. -/
theorem connections_perm (h : Referenced s) (lat lon : NodeId → F) {nodes : List NodeId}
    (hnodup : nodes.Nodup) (hnodes : ∀ n, refs s n ≠ [] → n ∈ nodes) :
    ((nodes.map (osmNode s isKeynode lat lon)).flatMap (connections isKeynode)).Perm
      (ofWays s fun way => nexts (keynodes isKeynode way)) := by
  have hnode : (nodes.map (osmNode s isKeynode lat lon)).flatMap (connections isKeynode) =
      (nodes.flatMap fun n => (refs s n).map fun ref => (n, ref)).flatMap
        (contribution s isKeynode) := by
    rw [flatMap_map, flatMap_assoc]
    exact flatMap_congr fun n _ => connections_osmNode lat lon n
  have hway : (s.highwayList.flatMap fun w => ((s.way w).map (positions w)).getD []).flatMap
        (contribution s isKeynode) =
      ofWays s fun way => nexts (keynodes isKeynode way) := by
    rw [flatMap_assoc]
    exact flatMap_congr fun w hw => flatMap_positions h hw
  rw [hnode, ← hway]
  exact (refs_perm_positions h hnodup hnodes).flatMap_right _

theorem mem_of_refs {files : List Highway} {tree : List NodeId}
    (hfin : OsmMap.FinalMap tree files s) (hn : refs s n ≠ []) : n ∈ tree := by
  obtain ⟨ref, href⟩ := exists_mem_of_ne_nil _ hn
  obtain ⟨⟨w, i⟩, hr, -⟩ := mem_filterMap.mp href
  obtain ⟨way, hway, hi⟩ := (hfin.refs.entry n w i).mp hr
  rw [← show s.nodeTree = tree from hfin.nodeTree]
  exact hfin.refs.inTree w way n hway (mem_of_getElem? hi)

/-- The map of a complete file is one whose references fit. -/
theorem referenced_of_finalMap {files : List Highway} {tree : List NodeId}
    (hfin : OsmMap.FinalMap tree files s) (hc : OsmMap.Complete tree files) : Referenced s where
  ways := by
    rw [hfin.highwayList]
    exact nodup_range
  once n := by
    have hrefs : refs s n = (s.wayrefList n).map fun r => ⟨r.1, r.2⟩ := by
      rw [refs, ← filterMap_eq_map]
      exact filterMap_congr fun r hr => hfin.refs.object n r hr
    rw [hrefs]
    refine (hfin.refs.once n).map fun r r' heq => ?_
    obtain ⟨hw, hi⟩ := OsmWayref.mk.inj heq
    exact Prod.ext hw hi
  owner n ref := by
    rw [refs, mem_filterMap]
    constructor
    · rintro ⟨⟨w, i⟩, hr, href⟩
      rw [hfin.refs.object n _ hr, some_inj] at href
      subst href
      obtain ⟨way, hway, hi⟩ := (hfin.refs.entry n w i).mp hr
      obtain ⟨h, hw, -⟩ := hfin.highway_of_way hway
      exact ⟨hfin.mem_highwayList.mpr ⟨h, hw⟩, way, hway, hi⟩
    · rintro ⟨-, hway⟩
      have hr := (hfin.refs.entry n ref.way ref.ndrefIndex).mpr hway
      exact ⟨_, hr, hfin.refs.object n _ hr⟩
  nodes w hw := by
    obtain ⟨h, hwh⟩ := hfin.mem_highwayList.mp hw
    obtain ⟨way, hway, ha⟩ := hfin.way hwh
    refine ⟨way, hway, fun e he => ?_⟩
    rw [hc.nodeSet (mem_of_getElem? hwh) ha] at he
    obtain ⟨n, -, rfl⟩ := mem_map.mp he
    exact ⟨n, rfl⟩

end Ways

/-! ## the level -/

section Level

variable [Double F] {isKeynode : NodeId → Bool} {lvl lvl' : PlanningMapLevel F}

theorem withNodes_generateLevel {scope : MapScope F} {row col lvlid : ℤ}
    (h : generateLevel scope row col lvlid = some lvl) : WithNodes isKeynode lvl := by
  rw [generateLevel] at h
  split_ifs at h
  cases h
  refine ⟨fun n place hfind => by simp [PlanningMapLevel.find] at hfind,
    fun n hfind => by simp [PlanningMapLevel.find] at hfind, fun node hnode => ?_⟩
  obtain ⟨blk, hblk, hnode⟩ := mem_flatMap.mp hnode
  obtain ⟨i, -, hblk⟩ := mem_flatMap.mp hblk
  obtain ⟨j, -, rfl⟩ := mem_map.mp hblk
  simp [generateBlock] at hnode

omit [Double F] in
/-- A node is added behind those of its block. -/
theorem nodeAt_set {b : ℕ} {blk : PlanningMapBlock F} (hblk : lvl.blocks[b]? = some blk)
    (new : PlanningMapNode F) {b' i : ℕ} {node : PlanningMapNode F}
    (hnode : lvl.nodeAt b' i = some node) (tree : List (ℤ × ℕ × ℕ)) :
    PlanningMapLevel.nodeAt { lvl with
      blocks := lvl.blocks.set b { blk with nodelist := blk.nodelist ++ [new] }
      gblAvlnode := tree } b' i = some node := by
  obtain ⟨blk', hblk', hnode⟩ := bind_eq_some_iff.mp hnode
  rw [nodeAt, bind_eq_some_iff]
  by_cases hb : b = b'
  · subst hb
    obtain rfl : blk = blk' := Option.some.inj (hblk.symm.trans hblk')
    have hlength := (List.getElem?_eq_some_iff.mp hblk).1
    refine ⟨{ blk with nodelist := blk.nodelist ++ [new] }, by simp [hlength], ?_⟩
    exact List.getElem?_append_left (List.getElem?_eq_some_iff.mp hnode).1 ▸ hnode
  · exact ⟨blk', by simp [hb, hblk'], hnode⟩

theorem PlanningMapLevel.WithNodes.generateNode {node : OsmNode F} (h : WithNodes isKeynode lvl)
    (hkey : node.isKeynode = isKeynode node.id) (hgen : lvl.generateNode node = some lvl') :
    WithNodes isKeynode lvl' := by
  rw [PlanningMapLevel.generateNode] at hgen
  split at hgen
  · next hkeynode =>
    split at hgen
    · cases hgen
      exact h
    · cases hgen
    · split at hgen
      · cases hgen
      · next _ b _ _ blk hblk =>
        cases hgen
        have hfind : ∀ {n place}, PlanningMapLevel.find { lvl with
            blocks := lvl.blocks.set b { blk with nodelist := blk.nodelist ++ [newNode node blk] }
            gblAvlnode :=
              if (lvl.find node.id).isSome then lvl.gblAvlnode
              else lvl.gblAvlnode ++ [(node.id, b, blk.nodelist.length)] } n = some place →
            lvl.find n = some place ∨ n = node.id ∧ place = (b, blk.nodelist.length) := by
          intro n place hplace
          by_cases hfound : (lvl.find node.id).isSome = true
          · rw [if_pos hfound] at hplace
            exact .inl hplace
          · rw [if_neg hfound, PlanningMapLevel.find, find?_append] at hplace
            cases hold : lvl.gblAvlnode.find? (fun p => p.1 == n) with
            | some p =>
              rw [hold] at hplace
              exact .inl (by rw [PlanningMapLevel.find, hold]; exact hplace)
            | none =>
              rw [hold, none_or] at hplace
              by_cases hn : node.id = n
              · exact .inr ⟨hn.symm, by simpa [hn] using hplace.symm⟩
              · simp [hn] at hplace
        refine ⟨fun n place hplace => ?_, fun n hn => ?_, fun node' hnode' => ?_⟩
        · rcases hfind hplace with hold | ⟨rfl, rfl⟩
          · obtain ⟨node', hnode', huid⟩ := h.placed n place hold
            exact ⟨node', nodeAt_set hblk _ hnode' _, huid⟩
          · have hlength := (List.getElem?_eq_some_iff.mp hblk).1
            exact ⟨newNode node blk, by simp [nodeAt, hlength], rfl⟩
        · obtain ⟨place, hplace⟩ := Option.ne_none_iff_exists'.mp hn
          rcases hfind hplace with hold | ⟨rfl, -⟩
          · exact h.keynode n (by simp [hold])
          · rw [← hkey, hkeynode]
        · obtain ⟨blk', hblk', hmem⟩ := mem_flatMap.mp hnode'
          rcases mem_or_eq_of_mem_set hblk' with hold | rfl
          · exact h.empty node' (mem_flatMap.mpr ⟨blk', hold, hmem⟩)
          · rcases mem_append.mp hmem with hold | hnew
            · exact h.empty node'
                (mem_flatMap.mpr ⟨blk, mem_of_getElem? hblk, hold⟩)
            · rw [mem_singleton.mp hnew]
              rfl
  · cases hgen
    exact h

theorem PlanningMapLevel.WithNodes.generateNodes {gen : List (OsmNode F)}
    (h : WithNodes isKeynode lvl) (hkey : ∀ node ∈ gen, node.isKeynode = isKeynode node.id)
    (hgen : lvl.generateNodes gen = some lvl') : WithNodes isKeynode lvl' := by
  induction gen generalizing lvl with
  | nil =>
    cases hgen
    exact h
  | cons node gen ih =>
    obtain ⟨lvl₁, hfirst, hrest⟩ := bind_eq_some_iff.mp hgen
    rw [forall_mem_cons] at hkey
    exact ih (h.generateNode hkey.1 hfirst) hkey.2 hrest

end Level

/-- A level that `generate_level` makes and `generate_node` fills. -/
def Generated [Double F] (isKeynode : NodeId → Bool) (lvl : PlanningMapLevel F) : Prop :=
  ∃ scope row col lvlid lvl₀ gen, generateLevel scope row col lvlid = some lvl₀ ∧
    (∀ node ∈ gen, node.isKeynode = isKeynode node.id) ∧ lvl₀.generateNodes gen = some lvl

theorem Generated.withNodes [Double F] {isKeynode : NodeId → Bool} {lvl : PlanningMapLevel F}
    (h : Generated isKeynode lvl) : WithNodes isKeynode lvl := by
  obtain ⟨scope, row, col, lvlid, lvl₀, gen, hlvl₀, hkey, hgen⟩ := h
  exact (withNodes_generateLevel hlvl₀).generateNodes hkey hgen

/-! ## the edges made -/

section

variable [Double F] {s : OsmMap} {isKeynode : NodeId → Bool} {nodes : List NodeId}
  {lvl : PlanningMapLevel F}

/-- The edges of the level: one connection for each position of a key node. -/
theorem edges_generateEdges (hs : Referenced s) (hnodup : nodes.Nodup)
    (hnodes : ∀ n, refs s n ≠ [] → n ∈ nodes) (lat lon : NodeId → F) (distance : F → F → F → F → F)
    (hlvl : Generated isKeynode lvl) (hkeys : ∀ n ∈ nodes, isKeynode n = true → lvl.find n ≠ none) :
    (lvl.generateEdges distance (nodes.map (osmNode s isKeynode lat lon))).edges.Perm
      (edgesOf (ofWays s fun way => nexts (keynodes isKeynode way))) := by
  have hwith := hlvl.withNodes
  have hempty : lvl.edges = [] := by
    refine flatMap_eq_nil_iff.mpr fun node hnode => ?_
    rw [hwith.empty node hnode, map_nil]
  have hkeynodes : HasKeynodes isKeynode (nodes.map (osmNode s isKeynode lat lon)) lvl := by
    refine ⟨hwith.keynode, forall_mem_map.mpr hkeys, forall_mem_map.mpr ?_⟩
    intro n _ wref hwref k hk
    -- a key node of a way has a reference
    obtain ⟨ref, href, hwref⟩ := mem_filterMap.mp hwref
    obtain ⟨hw, way, hway, -⟩ := (hs.owner n ref).mp href
    obtain ⟨way', hway', hnodes'⟩ := hs.nodes ref.way hw
    obtain rfl : way = way' := Option.some.inj (hway.symm.trans hway')
    obtain ⟨ns, hns⟩ := exists_nodes hnodes'
    rw [hway, Option.map_some, some_inj] at hwref
    subst hwref
    rw [hns, filterMap_nodeOf, keyed_map, mem_filter] at hk
    obtain ⟨i, hi⟩ := getElem?_of_mem hk.1
    have hmem : (⟨ref.way, i⟩ : OsmWayref) ∈ refs s k :=
      (hs.owner k _).mpr ⟨hw, way, hway, by rw [hns, getElem?_map, hi]; rfl⟩
    exact hkeys k (hnodes k (List.ne_nil_of_mem hmem)) hk.2
  have hadds := adds_generateEdges hwith.placed distance hkeynodes
  refine hadds.edges.trans ?_
  rw [hempty, append_nil]
  exact (connections_perm hs lat lon hnodup hnodes).map _

/-- The edges are those of the ways just if the connections that a key node repeated at once adds
are the ones that the close loops lack. -/
theorem connects_iff (hs : Referenced s) (hnodup : nodes.Nodup)
    (hnodes : ∀ n, refs s n ≠ [] → n ∈ nodes) (lat lon : NodeId → F) (distance : F → F → F → F → F)
    (hlvl : Generated isKeynode lvl) (hkeys : ∀ n ∈ nodes, isKeynode n = true → lvl.find n ≠ none) :
    Connects s isKeynode
        (lvl.generateEdges distance (nodes.map (osmNode s isKeynode lat lon))) ↔
      (ofWays s fun way => repeats (keynodes isKeynode way)).Perm
        (ofWays s (closing isKeynode)) := by
  have hmade := edges_generateEdges hs hnodup hnodes lat lon distance hlvl hkeys
  have hnexts : (ofWays s fun way => nexts (keynodes isKeynode way)).Perm
      (ofWays s (fun way => steps (keynodes isKeynode way)) ++
        ofWays s fun way => repeats (keynodes isKeynode way)) := by
    refine List.Perm.trans ?_ (ofWays_append _ _)
    exact ofWays_perm fun way => nexts_perm _
  have hright : (ofWays s fun way => steps (keynodes isKeynode way) ++ closing isKeynode way).Perm
      (ofWays s (fun way => steps (keynodes isKeynode way)) ++ ofWays s (closing isKeynode)) :=
    ofWays_append _ _
  have hinj : Function.Injective fun p : NodeId × NodeId => (p.1, some p.1, some p.2) := by
    intro p p' heq
    simp only [Prod.mk.injEq, some_inj] at heq
    exact Prod.ext heq.1 heq.2.2
  calc Connects s isKeynode _
      ↔ (edgesOf (ofWays s fun way => nexts (keynodes isKeynode way))).Perm
          (edgesOf (ofWays s fun way =>
            steps (keynodes isKeynode way) ++ closing isKeynode way)) :=
        ⟨fun h => hmade.symm.trans h, fun h => hmade.trans h⟩
    _ ↔ (ofWays s fun way => nexts (keynodes isKeynode way)).Perm
          (ofWays s fun way => steps (keynodes isKeynode way) ++ closing isKeynode way) :=
        map_perm_map_iff hinj
    _ ↔ (ofWays s (fun way => steps (keynodes isKeynode way)) ++
          ofWays s fun way => repeats (keynodes isKeynode way)).Perm
          (ofWays s (fun way => steps (keynodes isKeynode way)) ++
            ofWays s (closing isKeynode)) :=
        ⟨fun h => hnexts.symm.trans (h.trans hright),
          fun h => hnexts.trans (h.trans hright.symm)⟩
    _ ↔ _ := perm_append_left_iff _

end

/-! ## a close loop -/

/-- A road around from 1 over 2 and 3 back to 1. -/
private def triangle : List Highway := [⟨none, false, false, 0, 0, 0, [1, 2, 3, 1]⟩]

private def triangleMap : OsmMap :=
  (OsmMap.append [1, 2, 3] triangle).finalizeHighway.getD (OsmMap.append [] [])

private def triangleLevel : PlanningMapLevel ℚ :=
  { level := 1, row := 1, col := 1, latstep := 10, lonstep := 10
    minlat := 0, maxlat := 10, minlon := 0, maxlon := 10
    gblAvlnode := [(1, 0, 0), (2, 0, 1), (3, 0, 2)]
    blocks := [⟨0, 0, 0, 10, 10, [⟨1, 1, 1, 0, 0, []⟩, ⟨2, 2, 2, 0, 1, []⟩, ⟨3, 3, 3, 0, 2, []⟩]⟩] }

private def triangleNodes : List (OsmNode ℚ) :=
  [1, 2, 3].map (osmNode triangleMap (fun _ => true) (fun n => (n : ℚ)) fun n => (n : ℚ))

private theorem finalMap_triangle : OsmMap.FinalMap [1, 2, 3] triangle triangleMap := by
  have hfin : (OsmMap.append [1, 2, 3] triangle).finalizeHighway = some triangleMap := rfl
  exact OsmMap.finalMap_of_finalize hfin

private theorem referenced_triangleMap : Referenced triangleMap :=
  referenced_of_finalMap finalMap_triangle ⟨by decide, by decide⟩

private theorem generated_triangleLevel : Generated (fun _ => true) triangleLevel :=
  ⟨⟨0, 0, 10, 10⟩, 1, 1, 1, _, triangleNodes, rfl, by decide, by decide +kernel⟩

theorem connects_iff_triangle :
    Connects triangleMap (fun _ => true)
        (triangleLevel.generateEdges (fun _ _ _ _ => 0) triangleNodes) ↔
      (ofWays triangleMap fun way => repeats (keynodes (fun _ => true) way)).Perm
        (ofWays triangleMap (closing fun _ => true)) :=
  connects_iff referenced_triangleMap (by decide) (fun _ => mem_of_refs finalMap_triangle) _ _ _
    generated_triangleLevel (by decide +kernel)

/-- The edges between the last key node of the loop and the first are not made. -/
theorem not_connects :
    ¬ ∀ (s : OsmMap) (isKeynode : NodeId → Bool) (nodes : List NodeId) (lat lon : NodeId → ℚ)
        (distance : ℚ → ℚ → ℚ → ℚ → ℚ) (lvl : PlanningMapLevel ℚ), Referenced s → nodes.Nodup →
        (∀ n, refs s n ≠ [] → n ∈ nodes) → Generated isKeynode lvl →
        (∀ n ∈ nodes, isKeynode n = true → lvl.find n ≠ none) →
        Connects s isKeynode
          (lvl.generateEdges distance (nodes.map (osmNode s isKeynode lat lon))) := by
  intro hall
  have h := hall triangleMap (fun _ => true) [1, 2, 3] (fun n => (n : ℚ)) (fun n => (n : ℚ))
    (fun _ _ _ _ => 0) triangleLevel referenced_triangleMap (by decide)
    (fun _ => mem_of_refs finalMap_triangle) generated_triangleLevel (by decide +kernel)
  exact absurd h.length_eq (by decide +kernel)

end V2I.OsmParser
