import Mathlib.Algebra.Field.Rat
import Mathlib.Data.Finset.Card
import V2I.Lib.Angle
import V2I.Lib.Machine
import V2I.Lib.StdMap
import V2I.MapCore.Kdtree
import V2I.Zasbsc

/-!
# V2I.MapCore.HdmapQuery

The queries of `hdmap-impl.cpp` that search a kd-tree for the nodes nearest to a point, one
search after the other: `find_laneseg`, `get_neareast_points`, `get_neareast_laneseg` and
`find_laneseg_v1`. Each search marks its node `KNN_selected`, so that the next one finds
another node, and a query is to unmark what it marked before it returns.

Coordinates are exact, distances are kept by their squares as in `V2I.MapCore.Kdtree`, and
the functions of `<cmath>` are a parameter. A query has no result where the code reads what
is not there.
-/

namespace V2I.HdmapQuery

open Kdtree

/-! ## The map -/

/-- `point3d` -/
structure Point3d (K : Type) where
  x : K
  y : K
  z : K
  deriving DecidableEq

/-- `hdmap_lane_boundary_point_v1`, a node of `_lanebdy_kdtree`. -/
structure BoundaryPoint (K : Type) where
  pt : Point3d K
  lanesegIndex : ℕ
  s : K
  deriving DecidableEq

/-- `hdmap_datafile_laneseg_data_v1`; `lane` is the `id` of the `odr_lane` at `ptr`, none for a
null pointer. -/
structure LanesegData (K : Type) where
  innerPts : List (BoundaryPoint K)
  outerPts : List (BoundaryPoint K)
  lane : Option ℤ

/-- `hdmap_file_laneseg_v1`. Pointers to lane segments and lanes are indices in their tables. -/
structure Laneseg (K : Type) where
  insider : Option ℕ
  outsider : Option ℕ
  lane : Option ℕ
  data : Option (LanesegData K)

/-- `hdmap_file_lane_v1`: its segments from `lanesegs` on, and the lanes before and after it. -/
structure Lane where
  lanesegs : Option ℕ
  size : ℕ
  predecessors : List (Option ℕ)
  successors : List (Option ℕ)

/-- `hdmap_fileheader_v1`; `laneseg_count` is the length of the table. -/
structure Header (K : Type) where
  persistence : Bool
  xmin : K
  xmax : K
  ymin : K
  ymax : K

/-- `hdmap_impl`. The nodes of the trees are known by their ids; `lanesegIndex` and `bdyPoint`
are the records at them. -/
structure HdmapImpl (K : Type) where
  header : Option (Header K)
  lanesegKdtree : Kdtree.Tree K
  lanesegIndex : ℕ → ℕ
  lanebdyKdtree : Kdtree.Tree K
  bdyPoint : ℕ → BoundaryPoint K
  lanesegs : List (Laneseg K)
  lanes : List Lane
  /-- the pointer `start.left` of each lane segment, a branch of `_laneseg_kdtree` -/
  startLeft : ℕ → UInt64

/-- What the queries change: the `KNN_selected` flags of the two trees, and `start.left`. -/
structure Marks where
  laneseg : ℕ → Bool
  bdy : ℕ → Bool
  startLeft : ℕ → UInt64

/-- `<cmath>` -/
structure Math (K : Type) where
  atan2 : K → K → K
  fmod : K → K → K
  pi : K

variable {K : Type}

/-- `inner_pts` or `outer_pts` -/
def LanesegData.side (data : LanesegData K) (boundaryType : ℤ) : List (BoundaryPoint K) :=
  if 0 < boundaryType then data.innerPts else data.outerPts

variable [Field K] [LinearOrder K]

/-- `dbl_equal(a, b)` -/
def dblEqual (a b : K) : Bool := |a - b| < 1e-5

/-- `pt == o` -/
def Point3d.eq (p o : Point3d K) : Bool := dblEqual p.x o.x && dblEqual p.y o.y && dblEqual p.z o.z

/-- The index of a point of a boundary. -/
def pointIndex (pts : List (BoundaryPoint K)) (p : BoundaryPoint K) : Option ℕ :=
  pts.findIdx? fun q => q.s = p.s && q.pt.eq p.pt

/-- `NormalizeAngle(angle)` -/
def normalizeAngle (c : Math K) (angle : K) : K :=
  Angle.normalize c.fmod (· < 0) c.pi (2 * c.pi) angle

/-- `AngleDiff(from, to)` -/
def angleDiff (c : Math K) (fromAngle toAngle : K) : K := normalizeAngle c (toAngle - fromAngle)

/-- `NormalizeAngle((90 - hdg) * DEG2RAD)` -/
def mathHeading (c : Math K) (hdg : K) : K := normalizeAngle c ((90 - hdg) * c.pi / 180)

/-- Is the point outside of the bounding box? -/
def Header.excludes (hdr : Header K) (x y : K) : Prop :=
  x < hdr.xmin ∨ hdr.xmax < x ∨ y < hdr.ymin ∨ hdr.ymax < y

instance (hdr : Header K) (x y : K) : Decidable (hdr.excludes x y) :=
  inferInstanceAs (Decidable (_ ∨ _))

/-! ## One search after the other -/

/-- What a round of a query makes of the node that was found. -/
inductive Next (σ ρ : Type) where
  /-- return at once -/
  | leave (r : ρ)
  /-- push the node, clear the flags of all nodes pushed and return -/
  | restore (r : ρ)
  /-- go on without pushing the node -/
  | skip (s : σ)
  /-- push the node and go on -/
  | take (s : σ)
  /-- push the node and leave the loop -/
  | done (s : σ)

variable {σ ρ : Type}

/-- The loop over `lanept` that clears the flags. -/
def restore (lanept : List ℕ) (selected : ℕ → Bool) : ℕ → Bool :=
  lanept.foldl (fun sel id => Function.update sel id false) selected

/-- At most `n` rounds of a query, and the flags restored behind its loop. `null` is returned
when a search finds no node. -/
def rounds (tree : Kdtree.Tree K) (q : Point K) (f : Node K → WithTop K → σ → Option (Next σ ρ))
    (null : σ → ρ) : ℕ → (ℕ → Bool) → List ℕ → σ → Option ((ℕ → Bool) × (ρ ⊕ σ))
  | 0, selected, lanept, s => some (restore lanept selected, .inr s)
  | n + 1, selected, lanept, s =>
      match kdtree2dSearch selected q tree with
      | none => none
      | some found =>
          match found.nearest with
          | none => some (found.selected, .inl (null s))
          | some v =>
              match f v found.dist s with
              | none => none
              | some (.leave r) => some (found.selected, .inl r)
              | some (.restore r) => some (restore (lanept ++ [v.id]) found.selected, .inl r)
              | some (.skip s) => rounds tree q f null n found.selected lanept s
              | some (.take s) => rounds tree q f null n found.selected (lanept ++ [v.id]) s
              | some (.done s) => some (restore (lanept ++ [v.id]) found.selected, .inr s)

/-! ## The calls -/

/-- `hdmap_nearest_laneseg`, with the square of its distance. -/
abbrev NearestLaneseg (K : Type) := Option ℕ × WithTop K

/-- `hdmap_segment_point` -/
structure SegmentPoint (K : Type) where
  pt : Point3d K
  s : K
  deriving DecidableEq

namespace HdmapImpl

variable (m : HdmapImpl K) (c : Math K)

/-- `find_laneseg(x, y, count, set)` before its search: the return value of a rejected call. -/
def findLanesegRejects (x y : K) (count : Int32) : Option ℤ :=
  if m.lanesegKdtree.isNull then some (-ENOTAVAIL)
  else if count = 0 then some (-EBADPARM)
  else
    match m.header with
    | none => some (-ENOTAVAIL)
    | some hdr =>
        if !hdr.persistence then some (-ENOTSUPPORT)
        else if m.lanesegs.length = 0 then some (-ENOTFOUND)
        else if hdr.excludes x y then some (-ENOTFOUND)
        else none

/-- The loop of `find_laneseg` that searches. -/
def searchLanesegs (q : Point K) : ℕ → (ℕ → Bool) → List (NearestLaneseg K) →
    Option ((ℕ → Bool) × List (NearestLaneseg K))
  | 0, selected, set => some (selected, set)
  | n + 1, selected, set =>
      match kdtree2dSearch selected q m.lanesegKdtree with
      | none => none
      | some found =>
          match found.nearest with
          | none => none
          | some langseg => searchLanesegs q n found.selected
              (set ++ [(some (m.lanesegIndex langseg.id), found.dist)])

/-- The loop of `find_laneseg` that restores. The entries are lane segments, but the flag is
written as into an end point: it is bit 1 of `start.left`. -/
def clearLanesegs : List (NearestLaneseg K) → (ℕ → UInt64) → Option (ℕ → UInt64)
  | [], startLeft => some startLeft
  | (none, _) :: set, startLeft => clearLanesegs set startLeft
  | (some i, _) :: set, startLeft =>
      if i < m.lanesegs.length then
        clearLanesegs set (Function.update startLeft i (startLeft i &&& ~~~2))
      else none

/-- `find_laneseg(x, y, count, set)`. A count below 0 is a large unsigned number. The tree is
what it was built as while the pointers in it are. -/
def findLaneseg (s : Marks) (x y : K) (count : Int32) (set : List (NearestLaneseg K)) :
    Option (Marks × ℤ × List (NearestLaneseg K)) :=
  match m.findLanesegRejects x y count with
  | some ret => some (s, ret, set)
  | none =>
      let n := m.lanesegs.length
      let count := if count < 0 ∨ n < count.toInt.toNat then n else count.toInt.toNat
      if (List.range n).all fun i => s.startLeft i = m.startLeft i then
        match m.searchLanesegs ⟨x, y⟩ count s.laneseg set with
        | none => none
        | some (laneseg, set) =>
            (m.clearLanesegs set s.startLeft).map fun startLeft =>
              ({ s with laneseg, startLeft }, (count : ℤ), set)
      else none

/-- `get_neareast_points` before its search. -/
def getNeareastPointsRejects (src : Point3d K) : Option ℤ :=
  if m.lanebdyKdtree.isNull then some (-1)
  else
    match m.header with
    | none => some (-2)
    | some hdr =>
        if !hdr.persistence then some (-3)
        else if hdr.excludes src.x src.y then some (-4)
        else none

/-- Is a distance, given by its square, larger than `distance`? -/
def farther (distSq : WithTop K) (distance : K) : Prop :=
  distance < 0 ∨ ((distance * distance : K) : WithTop K) < distSq

instance (distSq : WithTop K) (distance : K) : Decidable (farther distSq distance) :=
  inferInstanceAs (Decidable (_ ∨ _))

/-- A round of `get_neareast_points`. Whether a point of the lane segment was there before
makes no difference: both branches keep the new one. -/
def pointsRound (distance : K) (v : Node K) (dist : WithTop K)
    (points : StdMap ℕ (SegmentPoint K)) :
    Option (Next (StdMap ℕ (SegmentPoint K)) (ℤ × StdMap ℕ (SegmentPoint K))) :=
  let p := m.bdyPoint v.id
  if m.lanesegs.length ≤ p.lanesegIndex then some (.restore (-6, points))
  else if farther dist distance then some (.skip points)
  else some (.take (points.set p.lanesegIndex ⟨p.pt, p.s⟩))

/-- `get_neareast_points(src, hdg, points, distance)`; `hdg` is not used. -/
def getNeareastPoints (s : Marks) (src : Point3d K) (points : StdMap ℕ (SegmentPoint K))
    (distance : K) : Option (Marks × ℤ × StdMap ℕ (SegmentPoint K)) :=
  match m.getNeareastPointsRejects src with
  | some ret => some (s, ret, points)
  | none =>
      (rounds m.lanebdyKdtree ⟨src.x, src.y⟩ (m.pointsRound distance) (fun points => (-5, points))
        m.lanesegs.length s.bdy [] points).map fun r =>
        ({ s with bdy := r.1 }, r.2.elim id fun points => (0, points))

/-- `find_laneseg_v1` and `get_neareast_laneseg` before their search. -/
def lanesegRejects (src : Point3d K) : Bool :=
  m.lanebdyKdtree.isNull ||
    match m.header with
    | none => true
    | some hdr => !hdr.persistence || m.lanesegs.length = 0 || hdr.excludes src.x src.y

/-- The first element that meets `p`, or the last one. -/
def seek {α : Type} (p : α → Bool) (a : α) : List α → α
  | [] => a
  | b :: l => if p b then b else seek p b l

/-- The direction of the boundary at one of its points: from a point some way back to one some
way on. -/
def headingAt (pts : List (BoundaryPoint K)) (index : ℕ) (point : BoundaryPoint K) : K :=
  let start := seek (fun q => 0.1 < point.s - q.s) point ((pts.take index).drop 1).reverse
  let last := if point.s - start.s < 0.1
    then seek (fun q => 0.1 < q.s - start.s) point (pts.drop (index + 1)) else point
  normalizeAngle c (c.atan2 (last.pt.y - start.pt.y) (last.pt.x - start.pt.x))

/-- The direction of a lane segment at a point of its outer or its inner boundary. -/
def heading (data : LanesegData K) (p : BoundaryPoint K) : Option K :=
  match pointIndex data.outerPts p with
  | some index => data.outerPts[index]?.map (headingAt c data.outerPts index)
  | none =>
      match pointIndex data.innerPts p with
      | some index => data.innerPts[index]?.map (headingAt c data.innerPts index)
      | none => none

/-- What the search loops look at first: an index out of range, a segment without its data or
its lane, a segment that runs in the direction `hdg`, with the direction in degrees, or any
other segment. -/
inductive Probe (K : Type) where
  | outOfRange
  | noLane
  | along (hdg : K)
  | other

/-- The common part of a round of `find_laneseg_v1` and `get_neareast_laneseg`. -/
def probe (hdg : K) (p : BoundaryPoint K) : Probe K :=
  match m.lanesegs[p.lanesegIndex]? with
  | none => .outOfRange
  | some ls =>
      match ls.data with
      | none => .noLane
      | some data =>
          match data.lane with
          | none => .noLane
          | some _ =>
              match heading c data p with
              | none => .other
              | some pthdr =>
                  let adf := angleDiff c pthdr hdg
                  if adf < c.pi / 2 ∧ -(c.pi / 2) < adf then
                    .along (normalizeAngle c (c.pi / 2 - pthdr) * 180 / c.pi)
                  else .other

/-- A round of `find_laneseg_v1`; the state is `hdg` and `lane_seg_point`. -/
def lanesegV1Round (v : Node K) (_ : WithTop K) (s : K × Option ℕ) :
    Option (Next (K × Option ℕ) K) :=
  match m.probe c s.1 (m.bdyPoint v.id) with
  | .outOfRange => some (.restore s.1)
  | .noLane => some (.leave s.1)
  | .along hdg => some (.done (hdg, some v.id))
  | .other => some (.take (s.1, some v.id))

/-- `find_laneseg_v1(src, hdg, bpt)`: the lane segment, `hdg` and the node at `*bpt`. -/
def findLanesegV1 (s : Marks) (src : Point3d K) (hdg : K) :
    Option (Marks × Option ℕ × K × Option ℕ) :=
  if m.lanesegRejects src then some (s, none, hdg, none)
  else
    (rounds m.lanebdyKdtree ⟨src.x, src.y⟩ (m.lanesegV1Round c) Prod.fst m.lanesegs.length s.bdy []
      (mathHeading c hdg, none)).map fun r =>
      ({ s with bdy := r.1 }, r.2.elim (fun hdg => (none, hdg, none)) fun t =>
        (t.2.map fun id => (m.bdyPoint id).lanesegIndex, t.1, t.2))

/-! ### On which side of a boundary -/

/-- `(ls - lanesegs) / sizeof(hdmap_file_laneseg_v1)`: the difference of the pointers counts
segments already, and becomes an unsigned number. -/
def lanesegOffset (ls first : ℕ) : Int32 := (UInt64.ofInt ((ls : ℤ) - first) / 136).toInt64.toInt32

/-- `get_prev_laneseg(ls)`; the outer `none` is a segment that is not there. -/
def getPrevLaneseg (ls : ℕ) : Option (Option ℕ) := do
  match (← m.lanesegs[ls]?).lane with
  | none => return none
  | some laneIndex =>
      let lane ← m.lanes[laneIndex]?
      let first ← lane.lanesegs
      let index := lanesegOffset ls first
      if index < 0 ∨ lane.size ≤ index.toInt.toNat then return none
      else if index = 0 then
        match lane.predecessors with
        | [] => return none
        | none :: _ => return none
        | some lanePrev :: _ =>
            let lanePrev ← m.lanes[lanePrev]?
            match lanePrev.lanesegs with
            | none => return none
            | some planesegs =>
                if lanePrev.size = 0 then none else return some (planesegs + lanePrev.size - 1)
      else return some (first + index.toInt.toNat - 1)

/-- `get_next_laneseg(ls)` -/
def getNextLaneseg (ls : ℕ) : Option (Option ℕ) := do
  match (← m.lanesegs[ls]?).lane with
  | none => return none
  | some laneIndex =>
      let lane ← m.lanes[laneIndex]?
      let first ← lane.lanesegs
      let index := lanesegOffset ls first
      if index < 0 ∨ lane.size ≤ index.toInt.toNat then return none
      else if index.toInt.toNat = lane.size - 1 then
        match lane.successors with
        | [] => return none
        | none :: _ => return none
        | some laneNext :: _ => return (← m.lanes[laneNext]?).lanesegs
      else return some (ls + 1)

/-- `find_point_post_with_segment(pt1, pt2, pt, right)`: the side of the segment on which the
point lies, none for an error. -/
def findPointPostWithSegment (pt1 pt2 : Option (BoundaryPoint K)) (pt : Point3d K) : Option ℤ :=
  match pt1, pt2 with
  | some p1, some p2 =>
      let x1 := p1.pt.x
      let y1 := p1.pt.y
      let x2 := p2.pt.x
      let y2 := p2.pt.y
      let cross := (x2 - x1) * (pt.x - x1) + (y2 - y1) * (pt.y - y1)
      if cross ≤ 0 then none
      else
        let d2 := (x2 - x1) * (x2 - x1) + (y2 - y1) * (y2 - y1)
        if d2 ≤ cross then none
        else
          let r := cross / d2
          let px := x1 + (x2 - x1) * r
          let py := y1 + (y2 - y1) * r
          if px = pt.x ∧ py = pt.y then some 0
          else
            let crossM := (pt.x - px) * (y2 - py) - (x2 - px) * (pt.y - py)
            some (if 10e-15 < crossM then 1 else -1)
  | _, _ => none

/-- The segments from `start` along a boundary, until one has the point beside it: the side, or
the last point. -/
def alongPoints (pt : Point3d K) : BoundaryPoint K → List (BoundaryPoint K) → ℤ ⊕ BoundaryPoint K
  | start, [] => .inr start
  | start, last :: pts =>
      match findPointPostWithSegment (some start) (some last) pt with
      | some right => .inl right
      | none => alongPoints pt last pts

/-- The end of `find_boundary`: all segments of the boundary, then those of the lane segments
before and after it. -/
def searchSide (ls : ℕ) (boundaryType : ℤ) (lspts : List (BoundaryPoint K)) (pt : Point3d K)
    (right : ℤ) : Option ℤ := do
  let first ← lspts[0]?
  match alongPoints pt first lspts.tail with
  | .inl right => return right
  | .inr start =>
      -- the side, or the point from which a segment leads to the boundary
      let before : ℤ ⊕ BoundaryPoint K ←
        match ← m.getPrevLaneseg ls with
        | none => some (.inr start)
        | some laneprev =>
            match (← m.lanesegs[laneprev]?).data with
            | none => some (.inr start)
            | some data =>
                match data.side boundaryType with
                | [] => none
                | p :: pts => some (alongPoints pt p pts)
      match before with
      | .inl right => return right
      | .inr start =>
          match findPointPostWithSegment (some start) (some first) pt with
          | some right => return right
          | none =>
              let start ← lspts.getLast?
              match ← m.getNextLaneseg ls with
              | none => return right
              | some lanenext =>
                  match (← m.lanesegs[lanenext]?).data with
                  | none => return right
                  | some data =>
                      match alongPoints pt start (data.side boundaryType) with
                      | .inl right => return right
                      | .inr _ => return right

/-- The point before a boundary point, none for a null pointer. -/
def pointBefore (ls : ℕ) (boundaryType : ℤ) (lspts : List (BoundaryPoint K)) (index : ℕ) :
    Option (Option (BoundaryPoint K)) := do
  if index = 0 then
    match ← m.getPrevLaneseg ls with
    | none => return none
    | some laneprev =>
        let data ← (← m.lanesegs[laneprev]?).data
        return some (← (data.side boundaryType).getLast?)
  else return some (← lspts[index - 1]?)

/-- The point after a boundary point, an error where the next lane segment has no data. -/
def pointAfter (ls : ℕ) (boundaryType : ℤ) (lspts : List (BoundaryPoint K)) (index : ℕ) :
    Option (Except Unit (Option (BoundaryPoint K))) := do
  if index = lspts.length - 1 then
    match ← m.getNextLaneseg ls with
    | none => return .ok none
    | some lanenext =>
        match (← m.lanesegs[lanenext]?).data with
        | none => return .error ()
        | some data => return .ok (some (← (data.side boundaryType)[0]?))
  else return .ok (some (← lspts[index + 1]?))

/-- `find_boundary` behind its search for the point: it is `lspts[index]`. -/
def boundaryAt (ls : ℕ) (boundaryType : ℤ) (lspts : List (BoundaryPoint K)) (index : ℕ)
    (pt : Point3d K) (right : ℤ) : Option (ℤ × ℤ) := do
  let point ← lspts[index]?
  match findPointPostWithSegment (← m.pointBefore ls boundaryType lspts index) (some point) pt with
  | some right => return (boundaryType, right)
  | none =>
      match ← m.pointAfter ls boundaryType lspts index with
      | .error _ => return (-ENOTFOUND, right)
      | .ok last =>
          match findPointPostWithSegment (some point) last pt with
          | some right => return (boundaryType, right)
          | none => return (boundaryType, ← m.searchSide ls boundaryType lspts pt right)

/-- `find_boundary(ls, bpt, pt, right)`: the type of the boundary or an error, and `right`. -/
def findBoundary (ls : ℕ) (bpt : BoundaryPoint K) (pt : Point3d K) (right : ℤ) :
    Option (ℤ × ℤ) := do
  match (← m.lanesegs[ls]?).data with
  | none => return (-ENOTAVAIL, right)
  | some data =>
      match pointIndex data.innerPts bpt with
      | some index => m.boundaryAt ls 1 data.innerPts index pt right
      | none =>
          match pointIndex data.outerPts bpt with
          | some index => m.boundaryAt ls (-1) data.outerPts index pt right
          | none => return (-ENOTFOUND, right)

/-! ### The lane segments around a point -/

/-- The lane segment on the side of the boundary where the point lies. -/
def sideLaneseg (ls : ℕ) (laneseg : Laneseg K) (boundaryType right : ℤ) : ℕ :=
  if 0 < right then
    (if 0 < boundaryType then laneseg.insider else laneseg.outsider).getD ls
  else ls

/-- A round of `get_neareast_laneseg`; the state is `hdg` and `lanesegs`. -/
def lanesegRound (src : Point3d K) (v : Node K) (_ : WithTop K) (s : K × Finset ℕ) :
    Option (Next (K × Finset ℕ) (K × Finset ℕ)) :=
  let p := m.bdyPoint v.id
  match m.probe c s.1 p with
  | .outOfRange => some (.restore s)
  | .noLane => some (.leave s)
  | .along hdg => some (.done (hdg, s.2))
  | .other => do
      let (boundaryType, right) ← m.findBoundary p.lanesegIndex p src 0
      if boundaryType = 0 then return .leave s
      else
        let laneseg ← m.lanesegs[p.lanesegIndex]?
        let id ← (← laneseg.data).lane
        let side := sideLaneseg p.lanesegIndex laneseg boundaryType (right * id * boundaryType)
        return .take (s.1, insert side s.2)

/-- `get_neareast_laneseg(src, hdg, lanesegs)` -/
def getNeareastLaneseg (s : Marks) (src : Point3d K) (hdg : K) (lanesegs : Finset ℕ) :
    Option (Marks × ℤ × K × Finset ℕ) :=
  if m.lanesegRejects src then some (s, -1, hdg, lanesegs)
  else
    (rounds m.lanebdyKdtree ⟨src.x, src.y⟩ (m.lanesegRound c src) id m.lanesegs.length s.bdy []
      (mathHeading c hdg, lanesegs)).map fun r =>
      ({ s with bdy := r.1 }, r.2.elim (fun t => (-1, t)) fun t => (t.2.card, t))

end HdmapImpl

/-! ## Runs -/

/-- A call with what is passed in, by value or by reference. -/
inductive Call (K : Type) where
  | findLaneseg (x y : K) (count : Int32) (set : List (NearestLaneseg K))
  | findLanesegV1 (src : Point3d K) (hdg : K)
  | getNeareastPoints (src : Point3d K) (hdg : K) (points : StdMap ℕ (SegmentPoint K))
      (distance : K)
  | getNeareastLaneseg (src : Point3d K) (hdg : K) (lanesegs : Finset ℕ)

/-- What comes back: the return value, and what was passed by reference. -/
inductive Reply (K : Type) where
  | findLaneseg (ret : ℤ) (set : List (NearestLaneseg K))
  | findLanesegV1 (ret : Option ℕ) (hdg : K) (bpt : Option ℕ)
  | getNeareastPoints (ret : ℤ) (points : StdMap ℕ (SegmentPoint K))
  | getNeareastLaneseg (ret : ℤ) (hdg : K) (lanesegs : Finset ℕ)

def step (m : HdmapImpl K) (c : Math K) (s : Marks) : Call K → Option (Marks × Reply K)
  | .findLaneseg x y count set =>
      (m.findLaneseg s x y count set).map fun r => (r.1, .findLaneseg r.2.1 r.2.2)
  | .findLanesegV1 src hdg =>
      (m.findLanesegV1 c s src hdg).map fun r => (r.1, .findLanesegV1 r.2.1 r.2.2.1 r.2.2.2)
  | .getNeareastPoints src _ points distance =>
      (m.getNeareastPoints s src points distance).map fun r => (r.1, .getNeareastPoints r.2.1 r.2.2)
  | .getNeareastLaneseg src hdg lanesegs =>
      (m.getNeareastLaneseg c s src hdg lanesegs).map fun r =>
        (r.1, .getNeareastLaneseg r.2.1 r.2.2.1 r.2.2.2)

end V2I.HdmapQuery
