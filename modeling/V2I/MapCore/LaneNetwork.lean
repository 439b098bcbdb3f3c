import V2I.MapCore.AdcPoint.Advance
import V2I.MapCore.HdmapQuery

/-!
# V2I.MapCore.LaneNetwork

`get_next_laneseg` and `get_prev_laneseg` of `hdmap_impl`: from a lane segment to the one
that follows or precedes it, over the end of the lane to its first successor or predecessor.

The position of a segment in its lane is the difference of two pointers, which counts
segments already. Both functions divide it by the size of a segment once more, so that the
first 136 segments of a lane all have the position 0.
-/

namespace V2I.AdcPoint

open HdmapQuery

variable {n m : ℕ}

/-- A map whose segments refer to the lane that they are in, and the tables of it that
`hdmap_impl` reads. The table of segments of a lane is null when the lane has none. -/
structure LaneNetwork (n m : ℕ) extends Hdmap n m where
  predecessors : Fin m → List (Option (Fin m))
  impl : HdmapImpl ℚ
  lane_iff : ∀ l ls, (laneseg ls).lane = some l ↔ InLane toHdmap l ls
  impl_laneseg : ∀ ls : Fin n, impl.lanesegs[ls.val]?.map (·.lane) =
    some ((laneseg ls).lane.map Fin.val)
  impl_lane : ∀ l : Fin m, impl.lanes[l.val]? = some
    { lanesegs := if (lane l).size = 0 then none else some (lane l).lanesegs
      size := (lane l).size
      predecessors := (predecessors l).map (·.map Fin.val)
      successors := (lane l).successors.map (·.map Fin.val) }

namespace LaneNetwork

variable (net : LaneNetwork n m)

/-- `get_prev_laneseg(ls)`; the outer `none` is a segment that is not there. -/
def getPrevLaneseg (ls : Fin n) : Option (Option ℕ) := net.impl.getPrevLaneseg ls

/-- `get_next_laneseg(ls)`; the pointer may be one behind the table of segments. -/
def getNextLaneseg (ls : Fin n) : Option (Option ℕ) := net.impl.getNextLaneseg ls

/-- The first segment of a lane. -/
def firstLaneseg (l : Fin m) : Option ℕ :=
  if (net.lane l).size = 0 then none else some (net.lane l).lanesegs

/-- The last segment of a lane. -/
def lastLaneseg (l : Fin m) : Option ℕ :=
  if (net.lane l).size = 0 then none else some ((net.lane l).lanesegs + (net.lane l).size - 1)

/-- The first of the lanes listed, if there is one and its pointer is not null. -/
def firstLane (lanes : List (Option (Fin m))) : Option (Fin m) := lanes.head?.join

/-- The two functions lead from a segment of a lane to its neighbours. -/
structure WalksAt (l : Fin m) (ls : Fin n) : Prop where
  next : ls.val + 1 < (net.lane l).lanesegs + (net.lane l).size →
    net.getNextLaneseg ls = some (some (ls.val + 1)) ∧
      net.getNextLaneseg ls = some ((nextLaneseg net.toHdmap ls).map Fin.val)
  prev : (net.lane l).lanesegs < ls → net.getPrevLaneseg ls = some (some (ls.val - 1))
  inverse : ∀ ls', InLane net.toHdmap l ls' → ls'.val = ls + 1 →
    net.getNextLaneseg ls = some (some ls'.val) ∧ net.getPrevLaneseg ls' = some (some ls.val)
  last : ls.val + 1 = (net.lane l).lanesegs + (net.lane l).size →
    net.getNextLaneseg ls = some ((firstLane (net.lane l).successors).bind net.firstLaneseg)
  first : ls.val = (net.lane l).lanesegs →
    net.getPrevLaneseg ls = some ((firstLane (net.predecessors l)).bind net.lastLaneseg)

/-- The two functions walk the lanes. -/
def Walks : Prop := ∀ l ls, InLane net.toHdmap l ls → net.WalksAt l ls

variable {net} {l l' : Fin m} {ls : Fin n}

/-- No segment is in two lanes. -/
theorem inLane_unique (h : InLane net.toHdmap l ls) (h' : InLane net.toHdmap l' ls) : l = l' :=
  Option.some.inj (((net.lane_iff l ls).mpr h).symm.trans ((net.lane_iff l' ls).mpr h'))

/-- The pointer to the last segment of a lane. -/
theorem lastLaneseg_eq_some {i : ℕ} (h : net.lastLaneseg l = some i) :
    (net.lane l).lanesegs ≤ i ∧ i + 1 = (net.lane l).lanesegs + (net.lane l).size := by
  unfold lastLaneseg at h
  split_ifs at h with hsize
  cases h
  omega

/-! ## The two functions -/

/-- The first 136 segments of a lane have the position 0. -/
theorem lanesegOffset_eq_zero {first i : ℕ} (hle : first ≤ i) (hlt : i < first + 136) :
    HdmapImpl.lanesegOffset i first = 0 := by
  have hsmall : ∀ k < 136, (UInt64.ofInt (k : ℕ) / 136).toInt64.toInt32 = 0 := by decide
  have hdiff : (i : ℤ) - first = (i - first : ℕ) := by omega
  rw [HdmapImpl.lanesegOffset, hdiff, hsmall _ (by omega)]

/-- The record of the lane that a segment is in. -/
theorem impl_laneseg_of_inLane (h : InLane net.toHdmap l ls) :
    ∃ seg, net.impl.lanesegs[ls.val]? = some seg ∧ seg.lane = some l.val := by
  have himpl := net.impl_laneseg ls
  rw [(net.lane_iff l ls).mpr h, Option.map_eq_some_iff] at himpl
  exact himpl

theorem size_ne_zero_of_inLane (h : InLane net.toHdmap l ls) : (net.lane l).size ≠ 0 := by
  have := h.1
  have := h.2
  omega

/-- `get_prev_laneseg` at the first 136 segments of a lane. -/
theorem getPrevLaneseg_eq (h : InLane net.toHdmap l ls)
    (hlt : ls.val < (net.lane l).lanesegs + 136) : net.getPrevLaneseg ls =
      some ((firstLane (net.predecessors l)).bind net.lastLaneseg) := by
  obtain ⟨seg, hseg, hlane⟩ := impl_laneseg_of_inLane h
  have hsize := size_ne_zero_of_inLane h
  unfold getPrevLaneseg HdmapImpl.getPrevLaneseg
  simp only [hseg, hlane, net.impl_lane, if_neg hsize, Option.bind_eq_bind, Option.bind_some,
    Option.pure_def, lanesegOffset_eq_zero h.1 hlt]
  cases hpred : net.predecessors l with
  | nil => simp [hsize, firstLane]
  | cons p ps =>
      cases p with
      | none => simp [hsize, firstLane]
      | some p =>
          have himpl := net.impl_lane p
          by_cases hp : (net.lane p).size = 0 <;>
            simp [hsize, hp, himpl, firstLane, lastLaneseg]

/-- `get_next_laneseg` at the one segment of a lane. -/
theorem getNextLaneseg_eq (h : InLane net.toHdmap l ls) (hone : (net.lane l).size = 1) :
    net.getNextLaneseg ls =
      some ((firstLane (net.lane l).successors).bind net.firstLaneseg) := by
  obtain ⟨seg, hseg, hlane⟩ := impl_laneseg_of_inLane h
  have hsize := size_ne_zero_of_inLane h
  have hlt : ls.val < (net.lane l).lanesegs + 136 := by
    have := h.2
    omega
  unfold getNextLaneseg HdmapImpl.getNextLaneseg
  simp only [hseg, hlane, net.impl_lane, if_neg hsize, Option.bind_eq_bind, Option.bind_some,
    Option.pure_def, lanesegOffset_eq_zero h.1 hlt]
  cases hsucc : (net.lane l).successors with
  | nil => simp [hone, firstLane]
  | cons p ps =>
      cases p with
      | none => simp [hone, firstLane]
      | some p =>
          have himpl := net.impl_lane p
          by_cases hp : (net.lane p).size = 0 <;>
            simp [hone, hp, himpl, firstLane, firstLaneseg]

/-- A lane of one segment. -/
theorem walksAt_of_size_eq_one (h : InLane net.toHdmap l ls) (hsize : (net.lane l).size = 1) :
    net.WalksAt l ls := by
  have hls : ls.val = (net.lane l).lanesegs := by
    have := h.1
    have := h.2
    omega
  refine ⟨fun hlt => ?_, fun hlt => ?_, fun ls' h' heq => ?_, fun _ => ?_, fun _ => ?_⟩
  · omega
  · omega
  · have := h'.2
    omega
  · exact getNextLaneseg_eq h hsize
  · exact getPrevLaneseg_eq h (by omega)

/-- **`get_next_laneseg` and `get_prev_laneseg`** walk the lanes of a network exactly when no
lane has more than one segment. -/
theorem walks_iff (net : LaneNetwork n m) : net.Walks ↔ ∀ l, (net.lane l).size ≤ 1 := by
  constructor
  · intro hwalks l
    by_contra hmany
    have hfit := (net.lane l).size_le
    let ls₀ : Fin n := ⟨(net.lane l).lanesegs, by omega⟩
    let ls₁ : Fin n := ⟨(net.lane l).lanesegs + 1, by omega⟩
    have h₀ : InLane net.toHdmap l ls₀ := ⟨le_rfl, Nat.lt_add_of_pos_right (by omega)⟩
    have h₁ : InLane net.toHdmap l ls₁ :=
      ⟨Nat.le_succ _, Nat.add_lt_add_left (not_le.mp hmany) _⟩
    have hprev := (hwalks l ls₁ h₁).prev (Nat.lt_succ_self _)
    rw [getPrevLaneseg_eq h₁ (Nat.add_lt_add_left (by omega) _), Option.some.injEq,
      Option.bind_eq_some_iff] at hprev
    -- the last segment of the predecessor would be the first of this lane
    obtain ⟨p, -, hlast⟩ := hprev
    obtain ⟨hle, hend⟩ := lastLaneseg_eq_some hlast
    have hp : InLane net.toHdmap p ls₀ := by
      refine ⟨hle, ?_⟩
      rw [← hend]
      exact Nat.lt_succ_self _
    obtain rfl := inLane_unique h₀ hp
    have hend' : (net.lane l).lanesegs + 1 - 1 + 1 =
      (net.lane l).lanesegs + (net.lane l).size := hend
    omega
  · intro hone l ls h
    refine walksAt_of_size_eq_one h (le_antisymm (hone l) ?_)
    have := h.1
    have := h.2
    omega

/-- One lane with two segments. -/
def twoSegments : LaneNetwork 2 1 where
  laneseg
    | 0 => ⟨none, none, some ⟨0, Nat.one_pos⟩, some ⟨⟨⟨0, 0⟩, 3, 0⟩, ⟨⟨10, 0⟩, 3, 10⟩, []⟩⟩
    | 1 => ⟨none, none, some ⟨0, Nat.one_pos⟩, some ⟨⟨⟨10, 0⟩, 4, 10⟩, ⟨⟨20, 0⟩, 4, 20⟩, []⟩⟩
  lane _ := ⟨[], 0, 2, by decide⟩
  predecessors _ := []
  impl :=
    { header := none
      lanesegKdtree := .null
      lanesegIndex := fun _ => 0
      lanebdyKdtree := .null
      bdyPoint := fun _ => ⟨⟨0, 0, 0⟩, 0, 0⟩
      lanesegs := [⟨none, none, some 0, none⟩, ⟨none, none, some 0, none⟩]
      lanes := [⟨some 0, 2, [], []⟩]
      startLeft := fun _ => 0 }
  lane_iff
    | 0, 0 => iff_of_true rfl ⟨by decide, by decide⟩
    | 0, 1 => iff_of_true rfl ⟨by decide, by decide⟩
  impl_laneseg
    | 0 => rfl
    | 1 => rfl
  impl_lane
    | 0 => rfl

/-- On a lane of two segments nothing precedes the second one, and what follows it lies behind
the table. -/
theorem not_walks_twoSegments : ¬ twoSegments.Walks ∧
    twoSegments.getPrevLaneseg 1 = some none ∧
    twoSegments.getNextLaneseg 1 = some (some 2) := by
  have hprev : twoSegments.getPrevLaneseg 1 = some none := by decide +kernel
  refine ⟨fun h => ?_, hprev, by decide +kernel⟩
  have h₁ := (h 0 1 ⟨by decide, by decide⟩).prev (by decide)
  rw [hprev] at h₁
  cases h₁

end LaneNetwork

end V2I.AdcPoint

/-!
## Widths at the center

`get_laneseg_center_width`: the width of the lane at a given `s`. The points of the first
segment are looked through; where none lies behind `s`, an inner loop follows the chain of next
segments to its end without looking at any of their points.

* `returns_iff` — what a call ends with, and when;
* `findsWidth_iff` — when that is the width at `s`.
-/

namespace V2I.AdcPoint.LaneNetwork

variable {n m : ℕ} (net : LaneNetwork n m)

/-- What a call hands back: a segment, none for the null pointer, and the width. -/
structure CenterWidth (n : ℕ) where
  laneseg : Option (Fin n)
  width : ℚ
  deriving DecidableEq

/-- A round of the inner loop. It leaves with the null pointer where the chain ends, and
without any result where the segment lies behind the table. -/
def followStep (ls : Fin n) : Option Unit ⊕ Fin n :=
  match net.getNextLaneseg ls with
  | none => .inl none
  | some none => .inl (some ())
  | some (some i) =>
      if h : i < n then
        match (net.laneseg ⟨i, h⟩).data with
        | none => .inl (some ())
        | some _ => .inr ⟨i, h⟩
      else .inl none

/-- `get_laneseg_center_width(ls, s, width)` in at most `fuel` rounds of the inner loop. There
is no result for a segment without data, whose points are read all the same. -/
def getLanesegCenterWidth (fuel : ℕ) (ls : Fin n) (s width : ℚ) : Option (CenterWidth n) :=
  match (net.laneseg ls).data with
  | none => none
  | some c =>
      match c.points.find? (s < ·.s) with
      | some p => some ⟨some ls, p.width⟩
      | none =>
          if c.last.s = s then some ⟨some ls, width⟩
          else (Loop.run net.followStep fuel ls).join.map fun _ => ⟨none, width⟩

/-- The width of a segment at `s`: that of the first point behind `s`, or that of the last point
if it lies at `s`. -/
def widthAt (s : ℚ) (ls : Fin n) : Option ℚ :=
  (net.laneseg ls).data.bind fun c =>
    ((c.points.find? (s < ·.s)).or (if c.last.s = s then some c.last else none)).map (·.width)

/-- The segments on the chain that begins with `ls`. -/
def OnChain (ls ls' : Fin n) : Prop := Loop.Reaches net.followStep ls ls'

/-- The first segment on the chain that has a width at `s`. -/
inductive FirstWidth (s : ℚ) : Fin n → Fin n → ℚ → Prop
  | here {ls : Fin n} {w : ℚ} : net.widthAt s ls = some w → FirstWidth s ls ls w
  | later {ls ls' ls'' : Fin n} {w : ℚ} : net.widthAt s ls = none →
      net.followStep ls = .inr ls' → FirstWidth s ls' ls'' w → FirstWidth s ls ls'' w

/-- A call ends with `r`. -/
def Returns (ls : Fin n) (s width : ℚ) (r : CenterWidth n) : Prop :=
  ∃ fuel, net.getLanesegCenterWidth fuel ls s width = some r

/-- No segment on the chain has a width at `s`. -/
def NoWidth (s : ℚ) (ls : Fin n) : Prop := ∀ ls', net.OnChain ls ls' → net.widthAt s ls' = none

/-- A call ends with the first segment on the chain that has a width at `s` and with this width, or
with the null pointer where there is none. -/
def FindsWidth (ls : Fin n) (s width : ℚ) : Prop :=
  ∃ r, net.Returns ls s width r ∧
    ((∃ ls' w, net.FirstWidth s ls ls' w ∧ r = ⟨some ls', w⟩) ∨
      (r.laneseg = none ∧ net.NoWidth s ls))

/-- The chain comes to an end. -/
def ChainEnds (ls : Fin n) : Prop := Loop.Returns net.followStep ls (some ())

variable {net} {ls : Fin n} {s width : ℚ} {c : CenterPts}

theorem widthAt_of_data (hdata : (net.laneseg ls).data = some c) : net.widthAt s ls =
    ((c.points.find? (s < ·.s)).or (if c.last.s = s then some c.last else none)).map (·.width) := by
  rw [widthAt, hdata, Option.bind_some]

theorem widthAt_eq_none_iff (hdata : (net.laneseg ls).data = some c) :
    net.widthAt s ls = none ↔ c.points.find? (s < ·.s) = none ∧ c.last.s ≠ s := by
  rw [widthAt_of_data hdata, Option.map_eq_none_iff, Option.or_eq_none_iff, ite_eq_right_iff]
  simp

/-- What a call ends with, case by case. -/
theorem returns_iff (hdata : (net.laneseg ls).data = some c) {r : CenterWidth n} :
    net.Returns ls s width r ↔
      (∃ p, c.points.find? (s < ·.s) = some p ∧ r = ⟨some ls, p.width⟩) ∨
        (c.points.find? (s < ·.s) = none ∧ c.last.s = s ∧ r = ⟨some ls, width⟩) ∨
        (net.widthAt s ls = none ∧ net.ChainEnds ls ∧ r = ⟨none, width⟩) := by
  rw [widthAt_eq_none_iff hdata]
  unfold Returns getLanesegCenterWidth ChainEnds Loop.Returns
  simp only [hdata]
  cases hfind : c.points.find? (s < ·.s) with
  | some p => simp [eq_comm]
  | none =>
      by_cases hlast : c.last.s = s
      · simp [hlast, eq_comm]
      · have hjoin : ∀ o : Option (Option Unit),
            o.join.map (fun _ => (⟨none, width⟩ : CenterWidth n)) = some r ↔
              o = some (some ()) ∧ r = ⟨none, width⟩ := by
          rintro (_ | _ | _)
          · simp
          · simp
          · simp [eq_comm]
        simp only [if_neg hlast, hjoin]
        simp [hlast]

/-- The first width on the chain is that of the first segment, if it has one. -/
theorem FirstWidth.eq_of_widthAt {ls' : Fin n} {w w' : ℚ} (h : net.FirstWidth s ls ls' w')
    (hw : net.widthAt s ls = some w) : ls' = ls ∧ w' = w := by
  cases h with
  | here hw' => exact ⟨rfl, Option.some.inj (hw'.symm.trans hw)⟩
  | later hnone => cases hw.symm.trans hnone

/-- The widths that are found: in the first segment behind `s`, at its end if the caller passes
the width that the last point has, and none at all on a chain that comes to an end. -/
def FirstSegmentDecides (net : LaneNetwork n m) (ls : Fin n) (s width : ℚ) : Prop :=
  ∃ c, (net.laneseg ls).data = some c ∧
    ((∃ p ∈ c.points, s < p.s) ∨ (c.last.s = s ∧ c.last.width = width) ∨
      (net.ChainEnds ls ∧ net.NoWidth s ls))

theorem find?_eq_some_of_exists (h : ∃ p ∈ c.points, s < p.s) :
    ∃ p, c.points.find? (s < ·.s) = some p := by
  rw [← Option.isSome_iff_exists, List.find?_isSome]
  simpa using h

theorem exists_of_find?_eq_some {p : LaneBoundaryPoint}
    (h : c.points.find? (s < ·.s) = some p) : ∃ p ∈ c.points, s < p.s :=
  ⟨p, List.mem_of_find?_eq_some h, by simpa using List.find?_some h⟩

/-- A call that finds the width. -/
theorem FindsWidth.firstSegmentDecides (h : net.FindsWidth ls s width) :
    net.FirstSegmentDecides ls s width := by
  obtain ⟨r, hr, hfound⟩ := h
  cases hdata : (net.laneseg ls).data with
  | none =>
      obtain ⟨fuel, hr⟩ := hr
      rw [getLanesegCenterWidth, hdata] at hr
      cases hr
  | some c =>
      refine ⟨c, hdata, ?_⟩
      obtain ⟨p, hp, -⟩ | ⟨hfind, hlast, rfl⟩ | ⟨hnone, hends, rfl⟩ := (returns_iff hdata).mp hr
      · exact .inl (exists_of_find?_eq_some hp)
      · have hw : net.widthAt s ls = some c.last.width := by
          rw [widthAt_of_data hdata, hfind, if_pos hlast]
          rfl
        obtain ⟨ls', w, hfirst, heq⟩ | ⟨hnull, -⟩ := hfound
        · obtain ⟨rfl, rfl⟩ := hfirst.eq_of_widthAt hw
          cases heq
          exact .inr (.inl ⟨hlast, rfl⟩)
        · cases hnull
      · obtain ⟨ls', w, -, heq⟩ | ⟨-, hno⟩ := hfound
        · cases heq
        · exact .inr (.inr ⟨hends, hno⟩)

/-- A call that the first segment decides, or the end of the chain. -/
theorem FirstSegmentDecides.findsWidth (h : net.FirstSegmentDecides ls s width) :
    net.FindsWidth ls s width := by
  obtain ⟨c, hdata, hcase⟩ := h
  have hbehind : ∀ p, c.points.find? (s < ·.s) = some p → net.FindsWidth ls s width := by
    intro p hp
    refine ⟨_, (returns_iff hdata).mpr (.inl ⟨p, hp, rfl⟩), .inl ⟨ls, p.width, .here ?_, rfl⟩⟩
    rw [widthAt_of_data hdata, hp]
    rfl
  obtain hex | ⟨hlast, rfl⟩ | ⟨hends, hno⟩ := hcase
  · exact (find?_eq_some_of_exists hex).elim hbehind
  · cases hfind : c.points.find? (s < ·.s) with
    | some p => exact hbehind p hfind
    | none =>
        refine ⟨_, (returns_iff hdata).mpr (.inr (.inl ⟨hfind, hlast, rfl⟩)),
          .inl ⟨ls, c.last.width, .here ?_, rfl⟩⟩
        rw [widthAt_of_data hdata, hfind, if_pos hlast]
        rfl
  · exact ⟨_, (returns_iff hdata).mpr (.inr (.inr ⟨hno ls (.refl ls), hends, rfl⟩)),
      .inr ⟨rfl, hno⟩⟩

/-- **`get_laneseg_center_width`** finds the width exactly when the first segment has it, or no
segment on a chain that ends. -/
theorem findsWidth_iff (net : LaneNetwork n m) (ls : Fin n) (s width : ℚ) :
    net.FindsWidth ls s width ↔ net.FirstSegmentDecides ls s width :=
  ⟨FindsWidth.firstSegmentDecides, FirstSegmentDecides.findsWidth⟩

/-- On a lane of two segments of 10 m, a width at 15 m is there, on the second segment, and
the first is left with the null pointer. -/
theorem not_findsWidth_twoSegments : ¬ twoSegments.FindsWidth 0 15 0 ∧
    twoSegments.FirstWidth 15 0 1 4 := by
  have hfirst : twoSegments.FirstWidth 15 0 1 4 :=
    .later (by decide +kernel) rfl (.here (by decide +kernel))
  refine ⟨fun h => ?_, hfirst⟩
  obtain ⟨c, hdata, hcase⟩ := h.firstSegmentDecides
  cases hdata
  obtain hbehind | ⟨hlast, -⟩ | ⟨-, hno⟩ := hcase
  · exact absurd hbehind (by decide +kernel)
  · exact absurd hlast (by decide +kernel)
  · exact absurd (hno 1 (.head rfl (.refl 1))) (by decide +kernel)

end V2I.AdcPoint.LaneNetwork
