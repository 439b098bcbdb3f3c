import Mathlib.Data.List.Triplewise
import Mathlib.Data.Set.Finite.Lemmas
import Mathlib.Data.Set.Finite.List
import V2I.Lib.Cyclic
import V2I.Lib.Plane

/-!
# V2I.Lib.ConvexPolygon

Polygons as lists of vertices. A polygon is convex where no turn is to the right, or none is to
the left, over any three of its vertices; its region is the convex hull of the vertices.

* `mem_hull_iff` — the region is to the left of all edges;
* `exists_exit` — a segment that leaves the region meets an edge;
* `not_alternates` — no line divides four vertices in turn.
-/

namespace V2I.ConvexPolygon

open Plane Cyclic List

variable {K : Type*} [Field K] [LinearOrder K]

/-- The region of a polygon. -/
def hull (l : List (K × K)) : Set (K × K) := convexHull K { v | v ∈ l }

/-- No turn to the right. -/
def TurnsLeft (l : List (K × K)) : Prop := l.Triplewise fun a b c => 0 ≤ orient a b c

/-- No turn to the left. -/
def TurnsRight (l : List (K × K)) : Prop := l.Triplewise fun a b c => orient a b c ≤ 0

/-- Some vertices span a triangle. -/
def Spans (l : List (K × K)) : Prop := ∃ a ∈ l, ∃ b ∈ l, ∃ c ∈ l, orient a b c ≠ 0

/-- A convex polygon that is not degenerate, in either orientation. -/
structure IsConvex (l : List (K × K)) : Prop where
  turns : TurnsLeft l ∨ TurnsRight l
  spans : Spans l

variable {l : List (K × K)} {a b c v y z u : K × K} {e : (K × K) × (K × K)}

theorem subset_hull (hv : v ∈ l) : v ∈ hull l := subset_convexHull K _ hv

theorem segment_subset_hull (hy : y ∈ hull l) (hz : z ∈ hull l) : segment K y z ⊆ hull l :=
  (convex_convexHull K _).segment_subset hy hz

omit [LinearOrder K] in
theorem Spans.three_le_length (h : Spans l) : 3 ≤ l.length := by
  obtain ⟨a, ha, b, hb, c, hc, hne⟩ := h
  have hnodup : [a, b, c].Nodup := by
    simp only [nodup_cons, mem_cons, not_mem_nil, or_false, not_or]
    refine ⟨⟨?_, ?_⟩, ?_, not_false, nodup_nil⟩
    · rintro rfl
      simp at hne
    · rintro rfl
      simp at hne
    · rintro rfl
      simp at hne
  exact (subperm_of_subset hnodup (by simp [ha, hb, hc])).length_le

/-- The edges are in the region. -/
theorem edge_subset_hull (he : e ∈ pairs l) : segment K e.1 e.2 ⊆ hull l :=
  segment_subset_hull (subset_hull (mem_of_mem_pairs he).1) (subset_hull (mem_of_mem_pairs he).2)

/-- Every vertex is to the left of every edge. -/
theorem TurnsLeft.supports (h : TurnsLeft l) (he : e ∈ pairs l) (hv : v ∈ l) :
    0 ≤ orient e.1 e.2 v := by
  have hturn := triplewise_iff_getElem.mp h
  obtain ⟨i, hi, rfl⟩ := mem_iff_getElem.mp he
  obtain ⟨m, hm, rfl⟩ := mem_iff_getElem.mp hv
  have hil : i < l.length := by rwa [length_pairs] at hi
  rcases Nat.lt_or_eq_of_le (Nat.succ_le_of_lt hil) with hnext | hlast
  · rw [pairs_getElem hnext hi]
    rcases lt_trichotomy m i with hlt | rfl | hgt
    · rw [orient_rotate]
      exact hturn m i (i + 1) hlt (Nat.lt_succ_self i) hnext
    · simp
    · rcases Nat.lt_or_eq_of_le (Nat.succ_le_of_lt hgt) with hlt | rfl
      · exact hturn i (i + 1) m (Nat.lt_succ_self i) hlt hm
      · simp
  · rw [pairs_getElem_last hlast hi]
    rcases Nat.eq_zero_or_pos m with rfl | hpos
    · simp
    · rcases Nat.lt_or_eq_of_le (Nat.le_of_lt_succ (hlast ▸ hm)) with hlt | rfl
      · rw [← orient_rotate]
        exact hturn 0 m i hpos hlt hil
      · simp

variable [IsStrictOrderedRing K]

theorem Spans.exists_ne (h : Spans l) (hab : a ≠ b) : ∃ v ∈ l, orient a b v ≠ 0 := by
  by_contra hnone
  push Not at hnone
  obtain ⟨p, hp, q, hq, r, hr, hne⟩ := h
  have hline : ∀ x ∈ l, ∀ y ∈ l, cross (b - a) (y - x) = 0 := by
    intro x hx y hy
    have hx := hnone x hx
    have hy := hnone y hy
    simp only [orient, cross, Prod.fst_sub, Prod.snd_sub] at hx hy ⊢
    linear_combination hy - hx
  have hpos := dot_self_pos (sub_ne_zero.mpr hab.symm)
  refine hne ((mul_eq_zero.mp ?_).resolve_left hpos.ne')
  rw [orient, dot_mul_cross, hline p hp q hq, hline p hp r hr, mul_zero, zero_mul, sub_zero]

/-! ## The region by its edges -/

/-- Where an edge that goes up meets the height of a point. -/
theorem exists_level (ha : a.2 ≤ y.2) (hb : y.2 ≤ b.2) (hab : a.2 < b.2) :
    ∃ x, (x, y.2) ∈ segment K a b ∧ orient a b y = (b.2 - a.2) * (x - y.1) := by
  have hpos : 0 < b.2 - a.2 := sub_pos.mpr hab
  have ht : (y.2 - a.2) / (b.2 - a.2) * (b.2 - a.2) = y.2 - a.2 := div_mul_cancel₀ _ hpos.ne'
  generalize hr : (y.2 - a.2) / (b.2 - a.2) = t at ht
  refine ⟨a.1 + t * (b.1 - a.1), mem_segment_of (t := t) ?_ ?_ rfl ?_, ?_⟩
  · rw [← hr]
    exact div_nonneg (sub_nonneg.mpr ha) hpos.le
  · rw [← hr]
    exact (div_le_one hpos).mpr (sub_le_sub_right hb _)
  · linear_combination -ht
  · simp only [orient, cross, Prod.fst_sub, Prod.snd_sub]
    linear_combination (a.1 - b.1) * ht

/-- A point between two edges, of which one goes up and one goes down at its height. -/
theorem mem_hull_of_levels {e' : (K × K) × (K × K)} (hleft : ∀ e ∈ pairs l, 0 ≤ orient e.1 e.2 y)
    (he : e ∈ pairs l) (hup : e.1.2 ≤ y.2 ∧ y.2 ≤ e.2.2 ∧ e.1.2 < e.2.2) (he' : e' ∈ pairs l)
    (hdown : e'.2.2 ≤ y.2 ∧ y.2 ≤ e'.1.2 ∧ e'.2.2 < e'.1.2) : y ∈ hull l := by
  obtain ⟨x, hx, horient⟩ := exists_level hup.1 hup.2.1 hup.2.2
  obtain ⟨x', hx', horient'⟩ := exists_level hdown.1 hdown.2.1 hdown.2.2
  have hright : 0 ≤ x - y.1 :=
    nonneg_of_mul_nonneg_right (horient ▸ hleft e he) (sub_pos.mpr hup.2.2)
  have hl : x' - y.1 ≤ 0 := by
    have h := hleft e' he'
    rw [orient_swap, horient'] at h
    have hpos := sub_pos.mpr hdown.2.2
    by_contra hlt
    have := mul_pos hpos (not_le.mp hlt)
    linarith
  rw [segment_symm] at hx'
  refine segment_subset_hull (edge_subset_hull he hx) (edge_subset_hull he' hx')
    (mem_segment_iff.mpr ⟨?_, ?_⟩)
  · simp [orient, cross]
  · simpa [dot] using mul_nonpos_of_nonneg_of_nonpos hright hl

/-- No point is to the left of all edges of a polygon that lies above it or below it. -/
theorem not_left_of_apart (hspans : Spans l) (hleft : ∀ e ∈ pairs l, 0 ≤ orient e.1 e.2 y)
    (hapart : (∀ v ∈ l, y.2 < v.2) ∨ ∀ v ∈ l, v.2 < y.2) : False := by
  have hne : ∀ v ∈ l, v.2 - y.2 ≠ 0 := by
    intro v hv
    rcases hapart with h | h
    · exact (sub_pos.mpr (h v hv)).ne'
    · exact (sub_neg.mpr (h v hv)).ne
  have hpos : ∀ v ∈ l, ∀ w ∈ l, 0 < (v.2 - y.2) * (w.2 - y.2) := by
    intro v hv w hw
    rcases hapart with h | h
    · exact mul_pos (sub_pos.mpr (h v hv)) (sub_pos.mpr (h w hw))
    · exact mul_pos_of_neg_of_neg (sub_neg.mpr (h v hv)) (sub_neg.mpr (h w hw))
  -- the slope of the line from `y` to a vertex never grows along an edge
  have hslope : ∀ e ∈ pairs l, (e.2.1 - y.1) / (e.2.2 - y.2) ≤ (e.1.1 - y.1) / (e.1.2 - y.2) := by
    intro e he
    obtain ⟨h₁, h₂⟩ := mem_of_mem_pairs he
    have h := hleft e he
    rw [orient_eq_cross, cross, Prod.fst_sub, Prod.snd_sub, Prod.fst_sub, Prod.snd_sub] at h
    rw [← sub_nonneg, div_sub_div _ _ (hne _ h₁) (hne _ h₂), mul_comm (e.1.2 - y.2) (e.2.1 - y.1)]
    exact div_nonneg h (hpos _ h₁ _ h₂).le
  have hle : ∀ v ∈ l, ∀ w ∈ l, (v.1 - y.1) / (v.2 - y.2) ≤ (w.1 - y.1) / (w.2 - y.2) := by
    intro v hv w hw
    by_contra hlt
    obtain ⟨e, he, h₁, h₂⟩ := exists_change
      (p := fun x => (x.1 - y.1) / (x.2 - y.2) ≤ (w.1 - y.1) / (w.2 - y.2)) hw le_rfl hv hlt
    exact h₂ ((hslope e he).trans h₁)
  -- so all vertices are on one line through `y`
  obtain ⟨a, ha, b, hb, c, hc, hturn⟩ := hspans
  have hline : ∀ v ∈ l, v.1 - y.1 = (a.1 - y.1) / (a.2 - y.2) * (v.2 - y.2) := by
    intro v hv
    rw [le_antisymm (hle a ha v hv) (hle v hv a ha), div_mul_cancel₀ _ (hne v hv)]
  refine hturn ?_
  simp only [orient, cross, Prod.fst_sub, Prod.snd_sub]
  linear_combination (c.2 - a.2) * (hline b hb - hline a ha) - (b.2 - a.2) *
    (hline c hc - hline a ha)

/-- **What is to the left of all edges** is in the region. -/
theorem mem_hull_of_left (hspans : Spans l) (hleft : ∀ e ∈ pairs l, 0 ≤ orient e.1 e.2 y) :
    y ∈ hull l := by
  by_cases hlow : ∃ v ∈ l, v.2 ≤ y.2
  · by_cases hhigh : ∃ v ∈ l, y.2 ≤ v.2
    · obtain ⟨v, hv, hvy⟩ := hlow
      obtain ⟨w, hw, hwy⟩ := hhigh
      by_cases habove : ∃ v ∈ l, y.2 < v.2
      · obtain ⟨w, hw, hwy⟩ := habove
        obtain ⟨e, he, h₁, h₂⟩ := exists_change (p := fun x => x.2 ≤ y.2) hv hvy hw (not_le.mpr hwy)
        obtain ⟨e', he', h₁', h₂'⟩ :=
          exists_change (p := fun x => y.2 < x.2) hw hwy hv (not_lt.mpr hvy)
        exact mem_hull_of_levels hleft he ⟨h₁, (not_le.mp h₂).le, h₁.trans_lt (not_le.mp h₂)⟩
          he' ⟨not_lt.mp h₂', h₁'.le, (not_lt.mp h₂').trans_lt h₁'⟩
      · by_cases hbelow : ∃ v ∈ l, v.2 < y.2
        · obtain ⟨v, hv, hvy⟩ := hbelow
          obtain ⟨e, he, h₁, h₂⟩ :=
            exists_change (p := fun x => x.2 < y.2) hv hvy hw (not_lt.mpr hwy)
          obtain ⟨e', he', h₁', h₂'⟩ :=
            exists_change (p := fun x => y.2 ≤ x.2) hw hwy hv (not_le.mpr hvy)
          exact mem_hull_of_levels hleft he ⟨h₁.le, not_lt.mp h₂, h₁.trans_le (not_lt.mp h₂)⟩
            he' ⟨(not_le.mp h₂').le, h₁', (not_le.mp h₂').trans_le h₁'⟩
        · -- all vertices are at the height of `y`
          push Not at habove hbelow
          obtain ⟨a, ha, b, hb, c, hc, hturn⟩ := hspans
          have hlevel : ∀ x ∈ l, x.2 = y.2 := fun x hx => le_antisymm (habove x hx) (hbelow x hx)
          exact absurd (by simp [orient, cross, hlevel a ha, hlevel b hb, hlevel c hc]) hturn
    · push Not at hhigh
      exact (not_left_of_apart hspans hleft (.inr hhigh)).elim
  · push Not at hlow
    exact (not_left_of_apart hspans hleft (.inl hlow)).elim

theorem TurnsLeft.left_of_mem (h : TurnsLeft l) (hz : z ∈ hull l) (he : e ∈ pairs l) :
    0 ≤ orient e.1 e.2 z :=
  (affine_orient e.1 e.2).nonneg_of_mem (fun _ hw => h.supports he hw) hz

/-- **The region** of a polygon that turns left is what is to the left of all its edges. -/
theorem TurnsLeft.mem_hull_iff (h : TurnsLeft l) (hspans : Spans l) :
    z ∈ hull l ↔ ∀ e ∈ pairs l, 0 ≤ orient e.1 e.2 z :=
  ⟨fun hz _ he => h.left_of_mem hz he, mem_hull_of_left hspans⟩

/-! ## The boundary -/

/-- The line through `z` in the direction `u` divides the edge from before `z` to the line or to
its left side: the edge ends on the line behind `z`, or `z` is to its right. -/
theorem mem_segment_or_right (hu : u ≠ 0) (ha : cross u (a - z) = 0) (hdot : dot u (a - z) < 0)
    (hb : 0 ≤ cross u (b - z)) (hbdot : cross u (b - z) = 0 → 0 ≤ dot u (b - z)) :
    z ∈ segment K a b ∨ orient a b z < 0 := by
  have hpos := dot_self_pos hu
  have hcross := dot_mul_cross u (a - z) (b - z)
  rw [← orient_eq_cross, ha, zero_mul, sub_zero] at hcross
  rcases hb.eq_or_lt with hb | hb
  · rw [← hb, mul_zero] at hcross
    have hprod := dot_mul_dot u (a - z) (b - z)
    rw [ha, zero_mul, add_zero] at hprod
    refine .inl (mem_segment_iff.mpr ⟨(mul_eq_zero.mp hcross).resolve_left hpos.ne', ?_⟩)
    have hle := mul_nonpos_of_nonpos_of_nonneg hdot.le (hbdot hb.symm)
    rw [← hprod] at hle
    exact nonpos_of_mul_nonpos_right hle hpos
  · right
    have hneg := mul_neg_of_neg_of_pos hdot hb
    rw [← hcross] at hneg
    exact neg_of_mul_neg_right hneg hpos.le

/-- **Where the region touches a line**, there is an edge. -/
theorem exists_edge_of_touch (hu : u ≠ 0) (hl : ∀ v ∈ l, 0 ≤ cross u (v - z)) (hz : z ∈ hull l)
    (hleft : ∀ e ∈ pairs l, 0 ≤ orient e.1 e.2 z) : ∃ e ∈ pairs l, z ∈ segment K e.1 e.2 := by
  have hzero : cross u (z - z) = 0 ∧ dot u (z - z) = 0 := by simp [cross, dot]
  obtain ⟨p, hp, hpline, hpdot⟩ :=
    exists_mem_le (affine_cross u z) (affine_dot u z) hl hz hzero.1 hzero.2
  obtain ⟨q, hq, hqline, hqdot⟩ :=
    exists_mem_le (affine_cross u z) (affine_dot u z).neg hl hz hzero.1 (by simp [dot])
  rcases hpdot.eq_or_lt with hpdot | hpdot
  · -- `z` is a vertex
    have hpz : dot u u * dot (p - z) (p - z) = 0 := by
      rw [dot_mul_dot, hpline, hpdot, mul_zero, add_zero]
    have hpz := dot_self_eq_zero.mp ((mul_eq_zero.mp hpz).resolve_left (dot_self_pos hu).ne')
    obtain ⟨e, he, rfl⟩ := exists_pair hp
    exact ⟨e, he, sub_eq_zero.mp hpz ▸ left_mem_segment K _ _⟩
  · obtain ⟨e, he, ⟨hline, hdot⟩, hnot⟩ := exists_change
      (p := fun w => cross u (w - z) = 0 ∧ dot u (w - z) < 0) hp ⟨hpline, hpdot⟩ hq
      fun h => absurd h.2 (not_lt.mpr (neg_nonpos.mp hqdot))
    have hside := hl _ (mem_of_mem_pairs he).2
    rcases mem_segment_or_right hu hline hdot hside
      fun h => not_lt.mp fun hlt => hnot ⟨h, hlt⟩ with hseg | hright
    · exact ⟨e, he, hseg⟩
    · exact absurd (hleft e he) (not_le.mpr hright)

/-- **A segment that leaves the region** meets an edge. -/
theorem TurnsLeft.exists_exit (h : TurnsLeft l) (hspans : Spans l) (hz : z ∈ hull l)
    (hy : y ∉ hull l) : ∃ x ∈ segment K z y, ∃ e ∈ pairs l, x ∈ segment K e.1 e.2 := by
  have hin : ∀ e ∈ pairs l, 0 ≤ orient e.1 e.2 z := (h.mem_hull_iff hspans).mp hz
  -- of the edges that have `y` to their right, the one that is met first
  have hright : { e | e ∈ pairs l ∧ orient e.1 e.2 y < 0 }.Nonempty := by
    by_contra hnone
    refine hy (mem_hull_of_left hspans fun e he => ?_)
    exact not_lt.mp fun hlt => hnone ⟨e, he, hlt⟩
  have hfinite : { e | e ∈ pairs l ∧ orient e.1 e.2 y < 0 }.Finite :=
    (pairs l).finite_toSet.subset fun _ he => he.1
  obtain ⟨e, ⟨he, hey⟩, hfirst⟩ := Set.exists_min_image _
    (fun e => orient e.1 e.2 z / (orient e.1 e.2 z - orient e.1 e.2 y)) hfinite hright
  have hpos : ∀ e ∈ pairs l, orient e.1 e.2 y < 0 → 0 < orient e.1 e.2 z - orient e.1 e.2 y := by
    intro e he hlt
    linarith [hin e he]
  have ht := div_mul_cancel₀ (orient e.1 e.2 z) (hpos e he hey).ne'
  have ht₀ : 0 ≤ orient e.1 e.2 z / (orient e.1 e.2 z - orient e.1 e.2 y) :=
    div_nonneg (hin e he) (hpos e he hey).le
  have ht₁ : orient e.1 e.2 z / (orient e.1 e.2 z - orient e.1 e.2 y) ≤ 1 :=
    (div_le_one (hpos e he hey)).mpr (by linarith)
  generalize orient e.1 e.2 z / (orient e.1 e.2 z - orient e.1 e.2 y) = t at hfirst ht ht₀ ht₁
  have hx : (1 - t) • z + t • y ∈ segment K z y :=
    ⟨1 - t, t, by linarith, ht₀, by ring, rfl⟩
  have hside : ∀ e : (K × K) × (K × K), orient e.1 e.2 ((1 - t) • z + t • y) =
      (1 - t) * orient e.1 e.2 z + t * orient e.1 e.2 y := fun e =>
    affine_orient e.1 e.2 z y (1 - t) t (by ring)
  have hleft : ∀ e ∈ pairs l, 0 ≤ orient e.1 e.2 ((1 - t) • z + t • y) := by
    intro e' he'
    rw [hside]
    rcases lt_or_ge (orient e'.1 e'.2 y) 0 with hlt | hge
    · have hle := (le_div_iff₀ (hpos e' he' hlt)).mp (hfirst e' ⟨he', hlt⟩)
      linarith
    · exact add_nonneg (mul_nonneg (by linarith) (hin e' he')) (mul_nonneg ht₀ hge)
  have hline : orient e.1 e.2 ((1 - t) • z + t • y) = 0 := by
    rw [hside]
    linarith
  refine ⟨_, hx, exists_edge_of_touch (u := e.2 - e.1) ?_ ?_ (mem_hull_of_left hspans hleft) hleft⟩
  · intro hzero
    rw [orient, hzero] at hey
    simp [cross] at hey
  · intro v hv
    have hv := h.supports he hv
    simp only [orient, cross, Prod.fst_sub, Prod.snd_sub] at hv hline ⊢
    linarith

/-! ## Lines across a polygon -/

/-- Four points whose heights are above and not above a line in turn. -/
def Crossed (r : K) (a b c d : K × K) : Prop :=
  (a.2 ≤ r ∧ r < b.2 ∧ c.2 ≤ r ∧ r < d.2) ∨ (r < a.2 ∧ b.2 ≤ r ∧ r < c.2 ∧ d.2 ≤ r)

variable {d w : K × K} {r : K}

/-- Four vertices that a line crosses in turn are on one line themselves. -/
theorem Crossed.collinear (h : Crossed r a b c d) (habc : 0 ≤ orient a b c)
    (habd : 0 ≤ orient a b d) (hacd : 0 ≤ orient a c d) (hbcd : 0 ≤ orient b c d) :
    orient a b c = 0 ∧ orient a b d = 0 := by
  have hsum : orient b c d + orient a b d = orient a c d + orient a b c := by
    simp only [orient, cross, Prod.fst_sub, Prod.snd_sub]
    ring
  have hheight : (a.2 - r) * orient b c d + (c.2 - r) * orient a b d =
      (b.2 - r) * orient a c d + (d.2 - r) * orient a b c := by
    simp only [orient, cross, Prod.fst_sub, Prod.snd_sub]
    ring
  rcases h with ⟨ha, hb, hc, hd⟩ | ⟨ha, hb, hc, hd⟩
  · have h₁ := mul_nonpos_of_nonpos_of_nonneg (sub_nonpos.mpr ha) hbcd
    have h₂ := mul_nonpos_of_nonpos_of_nonneg (sub_nonpos.mpr hc) habd
    have h₃ := mul_nonneg (sub_pos.mpr hb).le hacd
    have h₄ := mul_nonneg (sub_pos.mpr hd).le habc
    have hzero : (d.2 - r) * orient a b c = 0 := by linarith
    have hzero' : (b.2 - r) * orient a c d = 0 := by linarith
    have habc' := (mul_eq_zero.mp hzero).resolve_left (sub_pos.mpr hd).ne'
    have hacd' := (mul_eq_zero.mp hzero').resolve_left (sub_pos.mpr hb).ne'
    exact ⟨habc', by linarith⟩
  · have h₁ := mul_nonneg (sub_pos.mpr ha).le hbcd
    have h₂ := mul_nonneg (sub_pos.mpr hc).le habd
    have h₃ := mul_nonpos_of_nonpos_of_nonneg (sub_nonpos.mpr hb) hacd
    have h₄ := mul_nonpos_of_nonpos_of_nonneg (sub_nonpos.mpr hd) habc
    have hzero : (a.2 - r) * orient b c d = 0 := by linarith
    have hzero' : (c.2 - r) * orient a b d = 0 := by linarith
    have hbcd' := (mul_eq_zero.mp hzero).resolve_left (sub_pos.mpr ha).ne'
    have habd' := (mul_eq_zero.mp hzero').resolve_left (sub_pos.mpr hc).ne'
    exact ⟨by linarith, habd'⟩

omit [LinearOrder K] [IsStrictOrderedRing K] in
/-- Triangles over two pieces of one line. -/
theorem orient_scale (hc : orient a b c = 0) (hd : orient a b d = 0) :
    (b.2 - a.2) * orient c d w = (d.2 - c.2) * orient a b w := by
  simp only [orient, cross, Prod.fst_sub, Prod.snd_sub] at hc hd ⊢
  linear_combination (w.2 - c.2) * (hc - hd) - (d.2 - c.2) * hc

/-- On the side of a piece that runs the same way. -/
theorem nonneg_of_scale {s t f o : K} (h : s * o = t * f) (hst : 0 < t * s) (ho : 0 ≤ o) :
    0 ≤ f := by
  have hprod : 0 ≤ t * s * f := by
    have := mul_nonneg (mul_self_nonneg s) ho
    linear_combination this + s * h
  exact nonneg_of_mul_nonneg_right hprod hst

/-- On the side of a piece that runs the other way. -/
theorem nonpos_of_scale {s t f o : K} (h : s * o = t * f) (hst : t * s < 0) (ho : 0 ≤ o) :
    f ≤ 0 := by
  have h' : s * o = -t * -f := by rw [h, neg_mul_neg]
  exact neg_nonneg.mp (nonneg_of_scale h' (by linarith) ho)

/-- How the pieces between four points run. -/
theorem Crossed.runs (h : Crossed r a b c d) : (c.2 - b.2) * (b.2 - a.2) < 0 ∧
    0 < (d.2 - c.2) * (b.2 - a.2) ∧ 0 < (d.2 - a.2) * (b.2 - a.2) := by
  rcases h with ⟨ha, hb, hc, hd⟩ | ⟨ha, hb, hc, hd⟩
  · exact ⟨mul_neg_of_neg_of_pos (by linarith) (by linarith),
      mul_pos (by linarith) (by linarith), mul_pos (by linarith) (by linarith)⟩
  · exact ⟨mul_neg_of_pos_of_neg (by linarith) (by linarith),
      mul_pos_of_neg_of_neg (by linarith) (by linarith),
      mul_pos_of_neg_of_neg (by linarith) (by linarith)⟩

theorem TurnsLeft.not_crossed (h : TurnsLeft l) (hspans : Spans l) {i j k m : ℕ} (hij : i < j)
    (hjk : j < k) (hkm : k < m) (hm : m < l.length) : ¬ Crossed r l[i] l[j] l[k] l[m] := by
  intro hcrossed
  have hturn := triplewise_iff_getElem.mp h
  obtain ⟨hc, hd⟩ := hcrossed.collinear (hturn i j k hij hjk (by omega))
    (hturn i j m hij (by omega) hm) (hturn i k m (by omega) hkm hm) (hturn j k m hjk hkm hm)
  obtain ⟨hback, hforth, hacross⟩ := hcrossed.runs
  have hne : l[i] ≠ l[j] := by
    intro heq
    rw [heq, sub_self, mul_zero] at hback
    exact lt_irrefl 0 hback
  obtain ⟨w, hw, hside⟩ := hspans.exists_ne hne
  obtain ⟨n, hn, rfl⟩ := mem_iff_getElem.mp hw
  have ha : orient l[i] l[j] l[i] = 0 := orient_self _ _
  have hb : orient l[i] l[j] l[j] = 0 := orient_self_right _ _
  have hbc : 0 ≤ orient l[j] l[k] l[n] → orient l[i] l[j] l[n] ≤ 0 :=
    nonpos_of_scale (orient_scale hb hc) hback
  -- the vertex off the line, at its place among the four
  rcases lt_trichotomy n i with hni | rfl | hni
  · refine hside (le_antisymm (hbc ?_) ?_)
    · rw [orient_rotate]
      exact hturn n j k (by omega) hjk (by omega)
    · rw [orient_rotate]
      exact hturn n i j hni hij (by omega)
  · exact hside ha
  rcases lt_trichotomy n j with hnj | rfl | hnj
  · refine hside (le_antisymm ?_ (nonneg_of_scale (orient_scale hc hd) hforth ?_))
    · rw [← neg_nonneg, ← orient_swap_right]
      exact hturn i n j hni hnj (by omega)
    · rw [orient_rotate]
      exact hturn n k m (by omega) hkm hm
  · exact hside hb
  have hab : 0 ≤ orient l[i] l[j] l[n] := hturn i j n hij hnj hn
  rcases lt_trichotomy n k with hnk | rfl | hnk
  · have hscale := orient_scale (w := l[n]) ha hd
    have hneg : (l[j].2 - l[i].2) * -orient l[i] l[m] l[n] =
        (l[m].2 - l[i].2) * -orient l[i] l[j] l[n] := by
      linear_combination -hscale
    refine hside (le_antisymm (neg_nonneg.mp (nonneg_of_scale hneg hacross ?_)) hab)
    rw [← orient_swap_right]
    exact hturn i n m hni (by omega) hm
  · exact hside hc
  · exact hside (le_antisymm (hbc (hturn j k n hjk hnk hn)) hab)

/-- **No line** has four vertices above and not above it in turn. -/
theorem TurnsLeft.not_alternates (h : TurnsLeft l) (hspans : Spans l) (r : K) :
    ¬ Alternates (fun v => decide (r < v.2)) l := by
  rintro ⟨i, j, k, m, hij, hjk, hkm, hm, hgij, hgjk, hgkm⟩
  refine h.not_crossed hspans (r := r) hij hjk hkm hm ?_
  simp only [ne_eq, decide_eq_decide] at hgij hgjk hgkm
  simp only [Crossed, ← not_lt]
  tauto

/-! ## Other vertex lists -/

section Lists

variable {l' t : List (K × K)}

omit [IsStrictOrderedRing K] in
theorem hull_congr (h : ∀ v, v ∈ l' ↔ v ∈ l) : hull l' = hull l := by
  rw [hull, hull]
  congr 1
  ext v
  exact h v

omit [LinearOrder K] [IsStrictOrderedRing K] in
theorem Spans.congr (h : Spans l) (hmem : ∀ v, v ∈ l → v ∈ l') : Spans l' := by
  obtain ⟨a, ha, b, hb, c, hc, hne⟩ := h
  exact ⟨a, hmem a ha, b, hmem b hb, c, hmem c hc, hne⟩

omit [LinearOrder K] [IsStrictOrderedRing K] in
theorem orient_reverse (a b c : K × K) : orient c b a = -orient a b c := by
  rw [← orient_swap, ← orient_rotate]

theorem turnsLeft_reverse : TurnsLeft (a :: t.reverse) ↔ TurnsRight (a :: t) := by
  have htriple : ∀ x y z : K × K, 0 ≤ orient z y x ↔ orient x y z ≤ 0 := by
    intro x y z
    rw [orient_reverse, neg_nonneg]
  simp only [TurnsLeft, TurnsRight, triplewise_cons, pairwise_reverse,
    triplewise_reverse, htriple, orient_rotate a]

theorem turnsRight_reverse : TurnsRight (a :: t.reverse) ↔ TurnsLeft (a :: t) := by
  have h := turnsLeft_reverse (a := a) (t := t.reverse)
  rw [reverse_reverse] at h
  exact h.symm

theorem IsConvex.reverse (h : IsConvex (a :: t)) : IsConvex (a :: t.reverse) := by
  refine ⟨?_, h.spans.congr fun v hv => by simpa using hv⟩
  rw [turnsLeft_reverse, turnsRight_reverse]
  exact h.turns.symm

theorem triplewise_rotate {α : Type*} {p : α → α → α → Prop} {a : α} {t : List α}
    (hp : ∀ a b c, p a b c → p b c a) (h : (a :: t).Triplewise p) : (t ++ [a]).Triplewise p := by
  rw [triplewise_cons] at h
  refine triplewise_append.mpr ⟨h.2, by simp, by simp, fun x hx => ?_⟩
  rw [mem_singleton.mp hx]
  exact h.1.imp fun hpab => hp _ _ _ hpab

omit [IsStrictOrderedRing K] in
theorem IsConvex.rotate (h : IsConvex l) (n : ℕ) : IsConvex (l.rotate n) := by
  induction n generalizing l with
  | zero => simpa using h
  | succ n ih =>
      cases l with
      | nil => simpa using h
      | cons a t =>
          rw [rotate_cons_succ]
          refine ih ⟨?_, h.spans.congr fun v hv => by simpa [or_comm] using hv⟩
          refine h.turns.imp (triplewise_rotate fun a b c hturn => ?_)
            (triplewise_rotate fun a b c hturn => ?_)
          · rwa [orient_rotate]
          · rwa [orient_rotate]

/-- A convex polygon with its vertices in the order that turns left. -/
theorem IsConvex.exists_turnsLeft (h : IsConvex l) : ∃ l', TurnsLeft l' ∧ Spans l' ∧
    (∀ v, v ∈ l' ↔ v ∈ l) ∧ (pairs l' = pairs l ∨ pairs l' = (pairs l).reverse.map Prod.swap) := by
  rcases h.turns with hleft | hright
  · exact ⟨l, hleft, h.spans, fun v => Iff.rfl, .inl rfl⟩
  · cases l with
    | nil => exact ⟨[], .nil, h.spans, fun v => Iff.rfl, .inl rfl⟩
    | cons a t =>
        have hmem : ∀ v, v ∈ a :: t.reverse ↔ v ∈ a :: t := fun v => by simp
        exact ⟨a :: t.reverse, turnsLeft_reverse.mpr hright,
          h.spans.congr fun v hv => (hmem v).mpr hv, hmem, .inr (pairs_reverse a t)⟩

/-- A segment that leaves a convex polygon meets an edge. -/
theorem IsConvex.exists_exit (h : IsConvex l) (hz : z ∈ hull l) (hy : y ∉ hull l) :
    ∃ x ∈ segment K z y, ∃ e ∈ pairs l, x ∈ segment K e.1 e.2 := by
  obtain ⟨l', hleft, hspans, hmem, hpairs⟩ := h.exists_turnsLeft
  rw [← hull_congr hmem] at hz hy
  obtain ⟨x, hx, e, he, hxe⟩ := hleft.exists_exit hspans hz hy
  rcases hpairs with hpairs | hpairs
  · exact ⟨x, hx, e, hpairs ▸ he, hxe⟩
  · rw [hpairs, mem_map] at he
    obtain ⟨e', he', rfl⟩ := he
    exact ⟨x, hx, e', mem_reverse.mp he', segment_symm K e'.2 e'.1 ▸ hxe⟩

end Lists

end V2I.ConvexPolygon
