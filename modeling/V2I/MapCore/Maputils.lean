import Mathlib.Data.Rat.Floor
import V2I.Lib.Cyclic
import V2I.MapCore.Kdtree

/-!
# V2I.MapCore.Maputils

The polygons of `maputils.cpp`, on exact numbers: whether two segments have a point in common
(`get_cross_point`, with the point), whether a point is in a polygon, and whether two polygons
intersect, over any ordered field and with `EPS` as a parameter; then with the source's `EPS`.
-/

namespace V2I.Polygons

open Cyclic

variable {K : Type*} [Field K] [LinearOrder K]

/-- `dblcmp(a, b)` -/
def dblcmp (eps a b : K) : Int32 := if |a - b| ≤ eps then 0 else if b < a then 1 else -1

/-- `dot(x1, y1, x2, y2)` -/
def dot (x1 y1 x2 y2 : K) : K := x1 * x2 + y1 * y2

/-- `point_on_line(a, b, c)` -/
def pointOnLine (eps : K) (a b c : Point K) : Int32 :=
  dblcmp eps (dot (b.x - a.x) (b.y - a.y) (c.x - a.x) (c.y - a.y)) 0

/-- `cross(x1, y1, x2, y2)` -/
def cross (x1 y1 x2 y2 : K) : K := x1 * y2 - x2 * y1

/-- `ab_cross_ac(a, b, c)` -/
def abCrossAc (a b c : Point K) : K := cross (b.x - a.x) (b.y - a.y) (c.x - a.x) (c.y - a.y)

/-- `get_cross_point(p, a, b, c, d)`: the value returned, and `p`. -/
def getCrossPoint (eps : K) (p a b c d : Point K) : ℤ × Point K :=
  let s1 := abCrossAc a b c
  let s2 := abCrossAc a b d
  let d1 := dblcmp eps s1 0
  let d2 := dblcmp eps s2 0
  let d3 := dblcmp eps (abCrossAc c d a) 0
  let d4 := dblcmp eps (abCrossAc c d b) 0
  if d1 ^^^ d2 = -2 ∧ d3 ^^^ d4 = -2 then
    (1, ⟨(c.x * s2 - d.x * s1) / (s2 - s1), (c.y * s2 - d.y * s1) / (s2 - s1)⟩)
  else if d1 = 0 ∧ pointOnLine eps c a b ≤ 0 then (0, c)
  else if d2 = 0 ∧ pointOnLine eps d a b ≤ 0 then (0, d)
  else if d3 = 0 ∧ pointOnLine eps a c d ≤ 0 then (0, a)
  else if d4 = 0 ∧ pointOnLine eps b c d ≤ 0 then (0, b)
  else (-1, p)

/-- The ray to the right of `pt` meets the edge. -/
def rayMeets (pt : Point K) (e : Point K × Point K) : Bool :=
  let (pj, pi) := e
  ((pi.y ≤ pt.y ∧ pt.y < pj.y) ∨ (pj.y ≤ pt.y ∧ pt.y < pi.y)) ∧
    pt.x < (pj.x - pi.x) * (pt.y - pi.y) / (pj.y - pi.y) + pi.x

/-- `is_point_in_polygon(poly, pt)` -/
def isPointInPolygon (poly : List (Point K)) (pt : Point K) : Bool :=
  (pairs poly).foldl (fun c e => if rayMeets pt e then !c else c) false

/-- `is_polygons_intersected(poly1, poly2)` -/
def isPolygonsIntersected (eps : K) (poly1 poly2 : List (Point K)) : Bool :=
  if poly1.length < 3 ∨ poly2.length < 3 then false
  else
    ((pairs poly1).any fun e => (pairs poly2).any fun f =>
      0 ≤ (getCrossPoint eps ⟨0, 0⟩ e.1 e.2 f.1 f.2).1) ||
      (poly1.any (isPointInPolygon poly2)) || poly2.any (isPointInPolygon poly1)

/-- `reverse(pts)`: the first point stays. -/
def reverse : List (Point K) → List (Point K)
  | [] => []
  | p :: ps => p :: ps.reverse

end V2I.Polygons

namespace V2I.MapCore

/-- `EPS` -/
def eps : ℚ := 1 / 10 ^ 8

/-- `is_polygons_intersected(poly1, poly2)` -/
def isPolygonsIntersected (poly1 poly2 : List (Point ℚ)) : Bool :=
  Polygons.isPolygonsIntersected eps poly1 poly2

/-- `area(pts)`: the triangles at the first point, summed up. -/
def area : List (Point ℚ) → ℚ
  | p :: q :: r :: rest =>
      |(((r :: rest).zip (q :: r :: rest)).map fun e =>
        (e.1.x - p.x) * (e.2.y - p.y) - (e.1.y - p.y) * (e.2.x - p.x)).sum| / 2
  | _ => 0

/-- `reverse(pts)` -/
def reverse (pts : List (Point ℚ)) : List (Point ℚ) := Polygons.reverse pts

end V2I.MapCore
