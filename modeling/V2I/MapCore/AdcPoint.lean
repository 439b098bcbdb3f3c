import Mathlib.Algebra.Order.Field.Rat
import Mathlib.Data.List.FinRange
import V2I.Lib.Angle
import V2I.Lib.Loop
import V2I.MapCore.Kdtree

/-!
# V2I.MapCore.AdcPoint

`hdmap_laneseg::get_adc_and_point` of `hdmap-impl.cpp`: from a point of a lane segment a
given length ahead, over the following segments of the lane, those beside it and the lanes
that succeed it.

Numbers are exact; the functions of `<math.h>` are a parameter. A `hdmap_file_laneseg_v1*`
is an index in the table of lane segments, a `hdmap_file_lane_v1*` one in the table of lanes,
so that a pointer that is not null is valid. The segments of a lane lie next to each other.
-/

namespace V2I.AdcPoint

/-- `<math.h>` -/
structure Libm where
  /-- `M_PI` -/
  pi : ℚ
  sqrt : ℚ → ℚ
  atan2 : ℚ → ℚ → ℚ
  fmod : ℚ → ℚ → ℚ
  sqrt_nonneg : ∀ x, 0 ≤ sqrt x

/-- `hdmap_lane_boundary_point_v1` -/
structure LaneBoundaryPoint where
  pt : Point ℚ
  width : ℚ
  s : ℚ
  deriving DecidableEq

/-- `center_pts`: the code reads the first two points of every centre line. -/
structure CenterPts where
  first : LaneBoundaryPoint
  second : LaneBoundaryPoint
  rest : List LaneBoundaryPoint
  deriving DecidableEq

def CenterPts.points (c : CenterPts) : List LaneBoundaryPoint := c.first :: c.second :: c.rest

/-- `center_pts.ptr[lscsz - 1]` -/
def CenterPts.last (c : CenterPts) : LaneBoundaryPoint := c.rest.getLastD c.second

/-- `hdmap_file_laneseg_v1`: of its data only the centre line. -/
structure FileLaneseg (n m : ℕ) where
  insider : Option (Fin n)
  outsider : Option (Fin n)
  lane : Option (Fin m)
  data : Option CenterPts

/-- `hdmap_file_lane_v1`: its segments are those from `lanesegs` on. -/
structure FileLane (n m : ℕ) where
  successors : List (Option (Fin m))
  lanesegs : ℕ
  size : ℕ
  size_le : lanesegs + size ≤ n

/-- A map of `n` lane segments and `m` lanes. -/
structure Hdmap (n m : ℕ) where
  laneseg : Fin n → FileLaneseg n m
  lane : Fin m → FileLane n m

/-- `hdmap_segment_point` -/
structure SegmentPoint where
  pt : Point ℚ
  s : ℚ
  deriving DecidableEq

/-- What `get_adc_and_point` hands back: the segment it returns, none for the null pointer,
and its reference parameters. -/
structure Outcome (n : ℕ) where
  laneseg : Option (Fin n)
  nextpt : SegmentPoint
  hdg : ℚ
  w : ℚ
  route : List (Fin n)
  deriving DecidableEq

variable (M : Libm) {n m : ℕ}

/-! ## Angles -/

def normalizeAngle (angle : ℚ) : ℚ :=
  Angle.normalize M.fmod (· < 0) M.pi (2 * M.pi) angle

def angleDiff (src dst : ℚ) : ℚ := normalizeAngle M (dst - src)

/-- The heading in radians that the search goes on with: `(90 - hdg) * DEG2RAD`. -/
def radHeading (hdg : ℚ) : ℚ := (90 - hdg) * M.pi / 180

/-- `POINT_DISTANCE` -/
def pointDistance (p q : LaneBoundaryPoint) : ℚ :=
  M.sqrt ((q.pt.x - p.pt.x) * (q.pt.x - p.pt.x) + (q.pt.y - p.pt.y) * (q.pt.y - p.pt.y))

/-! ## Neighbours -/

section Neighbours

variable (map : Hdmap n m)

/-- `get_next_laneseg(ls, 0)`: the next segment of the lane. -/
def nextLaneseg (ls : Fin n) : Option (Fin n) :=
  match (map.laneseg ls).lane with
  | none => none
  | some l =>
      let hlane := map.lane l
      if hlane.size = 0 then none
      else if hlane.lanesegs ≤ ls ∧ ls < hlane.lanesegs + hlane.size then
        if h : ls + 1 < hlane.lanesegs + hlane.size then
          let lsn : Fin n := ⟨ls + 1, h.trans_le hlane.size_le⟩
          if (map.laneseg lsn).data.isNone then none else some lsn
        else none
      else none

/-- A segment beside this one, if it is there and has data. -/
def besideLaneseg (lsn : Option (Fin n)) : Option (Fin n) :=
  lsn.filter fun ls => (map.laneseg ls).data.isSome

/-- `get_next_laneseg(ls, direct)` for a positive `direct`. -/
def outsideLaneseg (ls : Fin n) : Option (Fin n) := besideLaneseg map (map.laneseg ls).outsider

/-- `get_next_laneseg(ls, direct)` for a negative `direct`. -/
def insideLaneseg (ls : Fin n) : Option (Fin n) := besideLaneseg map (map.laneseg ls).insider

/-- The segments of a lane. -/
def FileLane.segments (l : FileLane n m) : List (Fin n) :=
  (List.finRange n).filter fun ls => l.lanesegs ≤ ls ∧ ls < l.lanesegs + l.size

/-- One round of the loop over the segments of a successor: the candidate so far and
`minadf`, which takes the difference without its absolute value. -/
def closerLaneseg (hdg : ℚ) (best : Option (Fin n) × ℚ) (ls : Fin n) : Option (Fin n) × ℚ :=
  match (map.laneseg ls).data with
  | none => best
  | some c =>
      if 1 / 10 ^ 7 < c.first.s then best
      else
        let pthdr := M.atan2 (c.second.pt.y - c.first.pt.y) (c.second.pt.x - c.first.pt.x)
        let adf := angleDiff M (normalizeAngle M pthdr) hdg
        if |adf| < best.2 then (some ls, adf) else (best.1.or (some ls), best.2)

/-- `get_next_laneseg_by_hdg(hdls, hdg)` -/
def nextLanesegByHdg (hdls : Fin n) (hdg : ℚ) : Option (Fin n) :=
  match (map.laneseg hdls).lane with
  | none => none
  | some l =>
      ((((map.lane l).successors.filterMap id).flatMap fun l' => (map.lane l').segments).foldl
        (closerLaneseg M map hdg) (none, M.pi / 2)).1

/-- The segment that follows within the road: in this lane, else in the inner one, else in
the outer one. -/
def followLaneseg (ls : Fin n) : Option (Fin n) :=
  (nextLaneseg map ls).or <| ((insideLaneseg map ls).bind (nextLaneseg map)).or <|
    (outsideLaneseg map ls).bind (nextLaneseg map)

end Neighbours

/-! ## The point on a piece of the centre line -/

/-- The `for` loop over the centre points behind `start`. -/
def findPiece (leftS : ℚ) :
    LaneBoundaryPoint → List LaneBoundaryPoint → Option (LaneBoundaryPoint × LaneBoundaryPoint)
  | _, [] => none
  | start, e :: es => if leftS < e.s then some (start, e) else findPiece leftS e es

/-- The piece of the centre line that a segment is left on, none when it goes on behind it. -/
def CenterPts.piece (c : CenterPts) (leftS : ℚ) : Option (LaneBoundaryPoint × LaneBoundaryPoint) :=
  if c.last.s < leftS then none else findPiece leftS c.first (c.second :: c.rest)

/-- How far `leftS` is behind the start of a piece: rescaled where the piece is shorter than
the difference of `s` along it, and no longer than the piece. -/
def alongPiece (start e : LaneBoundaryPoint) (leftS : ℚ) : ℚ :=
  let leftS := leftS - start.s
  let dS := e.s - start.s
  let seglen := pointDistance M start e
  let leftS := if seglen < dS then leftS * seglen / dS else leftS
  if seglen < leftS then seglen else leftS

/-- The point at `leftS` on a piece. On a piece of length 0 the source divides by it and gets NaN, the
rationals 0. -/
def pointOnPiece (start e : LaneBoundaryPoint) (leftS : ℚ) : SegmentPoint :=
  let leftS := alongPiece M start e leftS
  let seglen := pointDistance M start e
  { s := start.s + leftS,
    pt := ⟨(e.pt.x - start.pt.x) * leftS / seglen + start.pt.x,
      (e.pt.y - start.pt.y) * leftS / seglen + start.pt.y⟩ }

/-- The heading along a piece, in degrees. -/
def pieceHeading (start e : LaneBoundaryPoint) : ℚ :=
  let dx := e.pt.x - start.pt.x
  let dy := e.pt.y - start.pt.y
  let hdg := if dx = 0 then M.pi / 2 else M.atan2 dy dx
  normalizeAngle M (M.pi / 2 - hdg) * 180 / M.pi

/-! ## The walk -/

/-- The variables of the outer loop. -/
structure Walk (n : ℕ) where
  leftS : ℚ
  laneseg : Fin n
  originLs : Fin n
  route : List (Fin n)
  deriving DecidableEq

variable (map : Hdmap n m)

/-- One round of the outer loop; `hdg` is the heading in radians, `nextpt` and `w` are what
the caller passed in. -/
def step (nextpt : SegmentPoint) (hdg w : ℚ) (k : Walk n) : Outcome n ⊕ Walk n :=
  if k.leftS ≤ 0 then .inl ⟨none, nextpt, hdg, w, k.route⟩
  else
    match (map.laneseg k.laneseg).data with
    | none => .inl ⟨none, nextpt, hdg, w, k.route⟩
    | some c =>
        let route := k.route ++ [k.laneseg]
        match c.piece k.leftS with
        | some (start, e) =>
            .inl ⟨some k.laneseg, pointOnPiece M start e k.leftS, pieceHeading M start e,
              start.width, route⟩
        | none =>
            match followLaneseg map k.laneseg with
            | some ls => .inr { k with laneseg := ls, route := route }
            | none =>
                match nextLanesegByHdg M map k.originLs hdg with
                | none => .inl ⟨none, nextpt, hdg, w, route⟩
                | some ls =>
                    .inr
                      { leftS := k.leftS - c.last.s, laneseg := ls, originLs := ls, route := route }

/-- The state in which the loop begins. -/
def Walk.start (ls : Fin n) (s : ℚ) (spt : SegmentPoint) : Walk n := ⟨s + spt.s, ls, ls, []⟩

/-- `ls->get_adc_and_point(s, spt, nextpt, hdg, w, route)` in at most `fuel` rounds of the
outer loop. -/
def getAdcAndPoint (fuel : ℕ) (ls : Fin n) (s : ℚ) (spt nextpt : SegmentPoint) (hdg w : ℚ) :
    Option (Outcome n) :=
  Loop.run (step M map nextpt (radHeading M hdg) w) fuel (.start ls s spt)

end V2I.AdcPoint
