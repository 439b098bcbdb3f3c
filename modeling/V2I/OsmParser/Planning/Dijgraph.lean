import Mathlib.Algebra.Order.Ring.Rat
import V2I.Lib.Dijkstra
import V2I.Lib.Loop
import V2I.Lib.StdMap

/-!
# V2I.OsmParser.Planning.Dijgraph

`dijgraph`: the graph of the nodes of a level, and `dijkstra`, which looks for the shortest way
between two of them. The table of distances has a place for each vertex with outgoing edges, and
the first place stands in for every other vertex.

Numbers are rationals here. What a `std::priority_queue` has on top is a parameter.
-/

namespace V2I.OsmParser

namespace Dijgraph

/-- `dijgraph::edge` -/
structure Edge where
  sid : ℤ
  eid : ℤ
  w : ℚ
  deriving DecidableEq

/-- `dijgraph::vertex` -/
structure Vertex where
  id : ℤ
  dist : ℚ
  deriving DecidableEq

end Dijgraph

/-- `dijgraph`, without the number of vertices that nothing reads -/
structure Dijgraph where
  adj : StdMap ℤ (List Dijgraph.Edge)

namespace Dijgraph

/-- `numeric_limits<double>::max()` -/
def dblMax : ℚ := 2 ^ 1024 - 2 ^ 971

def addedge (g : Dijgraph) (s e : ℤ) (w : ℚ) : Dijgraph :=
  match g.adj.find s with
  | some _ => ⟨g.adj.modify s (· ++ [⟨s, e, w⟩])⟩
  | none => ⟨g.adj.set s [⟨s, e, w⟩]⟩

/-- The graph after a number of calls of `addedge`. -/
def entered (edges : List Edge) : Dijgraph :=
  edges.foldl (fun g edge => g.addedge edge.sid edge.eid edge.w) ⟨.empty⟩

/-! ## The search -/

/-- The keys of `adj_`, in the order of the iterator -/
def ids (g : Dijgraph) : List ℤ := g.adj.keys.insertionSort (· ≤ ·)

/-- The queue of the search has the least distance on top. -/
abbrev MinQueue := PriorityQueue Vertex.dist

structure State (Q : MinQueue) where
  parent : StdMap ℤ ℤ
  vertexes : List Vertex
  shortest : StdMap ℤ Bool
  queue : Q.Queue

variable {Q : MinQueue}

/-- `vertexes[i].dist_ = dist; queue.push(vertexes[i])` -/
def State.improve (st : State Q) (i : ℕ) (dist : ℚ) : State Q :=
  match st.vertexes[i]? with
  | none => st
  | some v =>
      { st with
        vertexes := st.vertexes.set i ⟨v.id, dist⟩
        queue := Q.push st.queue ⟨v.id, dist⟩ }

/-- The place of a vertex in the table -/
def State.findIdx? (st : State Q) (id : ℤ) : Option ℕ := st.vertexes.findIdx? fun v => v.id = id

/-- No vertex is reached. -/
def State.new (Q : MinQueue) (g : Dijgraph) : State Q where
  parent := .empty
  vertexes := g.ids.map fun id => ⟨id, dblMax⟩
  shortest := g.ids.foldl (fun shortest id => shortest.set id false) .empty
  queue := Q.empty

/-- `dijkstra` up to the loop -/
def start (Q : MinQueue) (g : Dijgraph) (s : ℤ) : State Q :=
  match (State.new Q g).findIdx? s with
  | none => .new Q g
  | some i => (State.new Q g).improve i 0

/-- An edge of the vertex taken out of the queue -/
def relax (minVertex : Vertex) (st : State Q) (curEdge : Edge) : State Q :=
  -- a vertex that is not in the table is looked for in vain, and `verindex` stays zero
  let verindex := (st.findIdx? curEdge.eid).getD 0
  match st.vertexes[verindex]? with
  | none => st
  | some v =>
      if minVertex.dist + curEdge.w < v.dist then
        { st.improve verindex (minVertex.dist + curEdge.w) with
          parent := st.parent.set curEdge.eid minVertex.id }
      else st

/-- The vertex taken out of the queue is done with. -/
def State.settle (st : State Q) (id : ℤ) (queue : Q.Queue) : State Q :=
  { st with
    queue := queue
    shortest := st.shortest.set id true }

/-- A round of the loop; it is left with the parents. -/
def step (g : Dijgraph) (e : ℤ) (st : State Q) : StdMap ℤ ℤ ⊕ State Q :=
  match Q.pop st.queue with
  | none => .inl st.parent
  | some (minVertex, queue) =>
      if minVertex.id = e then .inl st.parent
      else if st.shortest.find minVertex.id = some true then .inr { st with queue := queue }
      else
        .inr <| ((g.adj.find minVertex.id).getD []).foldl (relax minVertex)
          (st.settle minVertex.id queue)

/-- `print`, as deep as it is given; the nodes that it pushes. -/
def print (s : ℤ) (parent : StdMap ℤ ℤ) : ℕ → ℤ → Option (List ℤ)
  | 0, _ => none
  | depth + 1, e =>
      match parent.find e with
      | none => some []
      | some p => if s = e then some [] else (print s parent depth p).map (· ++ [e])

/-- `dijkstra` ends with the nodes. -/
def Returns (Q : MinQueue) (g : Dijgraph) (s e : ℤ) (plannodes : List ℤ) : Prop :=
  ∃ parent, Loop.Returns (g.step (Q := Q) e) (start Q g s) parent ∧
    ∃ depth nodes, print s parent depth e = some nodes ∧
      plannodes = if nodes = [] then [] else s :: nodes

/-! ## What the search is for -/

/-- The edges as a graph. -/
def roads (edges : List Edge) : WeightedGraph ℤ Edge ℚ where
  edges := edges
  src := Edge.sid
  dst := Edge.eid
  weight := Edge.w

/-- The nodes of a shortest way from `s` to `e`, or no nodes where there is no way. -/
def Answers (edges : List Edge) (s e : ℤ) (plannodes : List ℤ) : Prop :=
  (∃ es, (roads edges).Shortest id s e es ∧ plannodes = s :: es.map Edge.eid) ∨
    (∀ es, ¬ (roads edges).Walk id s es e) ∧ plannodes = []

/-- `dijkstra` ends and answers. -/
def FindsShortest (Q : MinQueue) (edges : List Edge) (s e : ℤ) : Prop :=
  ∃ plannodes, (entered edges).Returns Q s e plannodes ∧ Answers edges s e plannodes

/-- The vertex whose place in the table a vertex has -/
def place (ids : List ℤ) (id : ℤ) : ℤ := if id ∈ ids then id else ids.headD id

/-- What a graph is to be like: no weight is negative, and no path is as long as the largest
double. -/
structure Measured (edges : List Edge) : Prop where
  nonneg : ∀ edge ∈ edges, 0 ≤ edge.w
  below : ∀ s es e, (roads edges).Walk id s es e → ((roads edges).nodes id s es).Nodup →
    (roads edges).length es < dblMax

end Dijgraph

end V2I.OsmParser
