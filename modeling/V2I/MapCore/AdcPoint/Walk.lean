import Mathlib.Data.Rat.Floor
import Mathlib.Tactic.Positivity
import V2I.MapCore.AdcPoint

/-!
# V2I.MapCore.AdcPoint.Walk

Which way `get_adc_and_point` takes and when it hands back the null pointer. `Leads` is the
way over the map, without the variables of the function; the loop follows it round by round.

Every null result has the heading of the caller overwritten: it is converted to radians
before the walk begins. Besides, a length that ends exactly where a lane does, or a walk
from `s + spt.s = 0`, gives null as well.
-/

namespace V2I.AdcPoint

variable {M : Libm} {n m : ℕ} {map : Hdmap n m}

/-! ## The way over the map -/

/-- A place on the way: the length left, the segment, and the first segment of its lane that
was met. -/
structure Place (n : ℕ) where
  leftS : ℚ
  laneseg : Fin n
  originLs : Fin n

/-- From a place to a later one, with a heading of `hdg` in radians. -/
inductive Leads (M : Libm) (map : Hdmap n m) (hdg : ℚ) : Place n → Place n → Prop
  | refl (k) : Leads M map hdg k k
  /-- behind the end of a segment that another one of the road follows -/
  | follow {k k' : Place n} {c : CenterPts} {ls : Fin n} : 0 < k.leftS →
      (map.laneseg k.laneseg).data = some c → c.piece k.leftS = none →
      followLaneseg map k.laneseg = some ls → Leads M map hdg { k with laneseg := ls } k' →
      Leads M map hdg k k'
  /-- behind the end of a lane, into the one that succeeds it -/
  | succeed {k k' : Place n} {c : CenterPts} {ls : Fin n} : 0 < k.leftS →
      (map.laneseg k.laneseg).data = some c → c.piece k.leftS = none →
      followLaneseg map k.laneseg = none → nextLanesegByHdg M map k.originLs hdg = some ls →
      Leads M map hdg ⟨k.leftS - c.last.s, ls, ls⟩ k' → Leads M map hdg k k'

/-- The length ends on a segment. -/
def EndsOnSegment (M : Libm) (map : Hdmap n m) (hdg : ℚ) (k : Place n) : Prop :=
  ∃ k' c, Leads M map hdg k k' ∧ 0 < k'.leftS ∧ (map.laneseg k'.laneseg).data = some c ∧
    (c.piece k'.leftS).isSome

/-- The length goes beyond the end of a lane that has no usable successor. -/
def GoesBeyond (M : Libm) (map : Hdmap n m) (hdg : ℚ) (k : Place n) : Prop :=
  ∃ k' c, Leads M map hdg k k' ∧ 0 < k'.leftS ∧ (map.laneseg k'.laneseg).data = some c ∧
    c.last.s < k'.leftS ∧ followLaneseg map k'.laneseg = none ∧
    nextLanesegByHdg M map k'.originLs hdg = none

def Walk.place (k : Walk n) : Place n := ⟨k.leftS, k.laneseg, k.originLs⟩

/-- A call ends, and when it returns null, the length goes beyond the end of a lane without successor
and the caller's point, heading and width are as before. -/
def NullOnlyBeyond (M : Libm) (map : Hdmap n m) (ls : Fin n) (s : ℚ) (spt nextpt : SegmentPoint)
    (hdg w : ℚ) : Prop :=
  ∃ r, (∃ fuel, getAdcAndPoint M map fuel ls s spt nextpt hdg w = some r) ∧
    (r.laneseg = none →
      GoesBeyond M map (radHeading M hdg) ⟨s + spt.s, ls, ls⟩ ∧
        r.nextpt = nextpt ∧ r.hdg = hdg ∧ r.w = w)

/-! ## The rounds of the loop -/

section Rounds

variable {nextpt : SegmentPoint} {hdg w : ℚ} {k : Walk n} {c : CenterPts}

theorem step_of_piece (hpos : 0 < k.leftS) (hdata : (map.laneseg k.laneseg).data = some c)
    {start e : LaneBoundaryPoint} (hpiece : c.piece k.leftS = some (start, e)) :
    step M map nextpt hdg w k = .inl ⟨some k.laneseg, pointOnPiece M start e k.leftS,
      pieceHeading M start e, start.width, k.route ++ [k.laneseg]⟩ := by
  simp only [step, if_neg (not_le.mpr hpos), hdata, hpiece]

theorem step_of_follow (hpos : 0 < k.leftS) (hdata : (map.laneseg k.laneseg).data = some c)
    (hpiece : c.piece k.leftS = none) {ls : Fin n} (hfollow : followLaneseg map k.laneseg = some ls) :
    step M map nextpt hdg w k =
      .inr { k with laneseg := ls, route := k.route ++ [k.laneseg] } := by
  simp only [step, if_neg (not_le.mpr hpos), hdata, hpiece, hfollow]

theorem step_of_succeed (hpos : 0 < k.leftS) (hdata : (map.laneseg k.laneseg).data = some c)
    (hpiece : c.piece k.leftS = none) (hfollow : followLaneseg map k.laneseg = none) {ls : Fin n}
    (hnext : nextLanesegByHdg M map k.originLs hdg = some ls) :
    step M map nextpt hdg w k = .inr
      { leftS := k.leftS - c.last.s, laneseg := ls, originLs := ls,
        route := k.route ++ [k.laneseg] } := by
  simp only [step, if_neg (not_le.mpr hpos), hdata, hpiece, hfollow, hnext]

theorem step_of_end (hpos : 0 < k.leftS) (hdata : (map.laneseg k.laneseg).data = some c)
    (hpiece : c.piece k.leftS = none) (hfollow : followLaneseg map k.laneseg = none)
    (hnext : nextLanesegByHdg M map k.originLs hdg = none) :
    step M map nextpt hdg w k = .inl ⟨none, nextpt, hdg, w, k.route ++ [k.laneseg]⟩ := by
  simp only [step, if_neg (not_le.mpr hpos), hdata, hpiece, hfollow, hnext]

/-- A round that leaves the loop: on a piece of the segment, or with null and the variables
of the caller as they came in. -/
theorem step_eq_inl {r : Outcome n} (h : step M map nextpt hdg w k = .inl r) :
    (0 < k.leftS ∧ ∃ c, (map.laneseg k.laneseg).data = some c ∧ (c.piece k.leftS).isSome) ∨
      (r.laneseg = none ∧ r.hdg = hdg) := by
  rw [step] at h
  split at h
  · cases h
    exact .inr ⟨rfl, rfl⟩
  rename_i hpos
  split at h
  · cases h
    exact .inr ⟨rfl, rfl⟩
  rename_i c hdata
  split at h
  · rename_i hpiece
    exact .inl ⟨not_le.mp hpos, c, hdata, by rw [hpiece]; rfl⟩
  split at h
  · cases h
  split at h
  · cases h
    exact .inr ⟨rfl, rfl⟩
  · cases h

/-- A round that goes on. -/
theorem step_eq_inr {k' : Walk n} (h : step M map nextpt hdg w k = .inr k') :
    0 < k.leftS ∧ ∃ c, (map.laneseg k.laneseg).data = some c ∧ c.piece k.leftS = none ∧
      ((∃ ls, followLaneseg map k.laneseg = some ls ∧
          k'.place = { k.place with laneseg := ls }) ∨
        (followLaneseg map k.laneseg = none ∧ ∃ ls,
          nextLanesegByHdg M map k.originLs hdg = some ls ∧
            k'.place = ⟨k.leftS - c.last.s, ls, ls⟩)) := by
  rw [step] at h
  split at h
  · cases h
  rename_i hpos
  split at h
  · cases h
  rename_i c hdata
  split at h
  · cases h
  rename_i hpiece
  refine ⟨not_le.mp hpos, c, hdata, hpiece, ?_⟩
  split at h
  · rename_i ls hfollow
    cases h
    exact .inl ⟨ls, hfollow, rfl⟩
  rename_i hfollow
  split at h
  · cases h
  · rename_i ls hnext
    cases h
    exact .inr ⟨hfollow, ls, hnext, rfl⟩

/-- The loop takes the way over the map. -/
theorem Leads.of_reaches {k' : Walk n} (h : Loop.Reaches (step M map nextpt hdg w) k k') :
    Leads M map hdg k.place k'.place := by
  induction h with
  | refl => exact .refl _
  | head hstep _ ih =>
      obtain ⟨hpos, c, hdata, hpiece, hway⟩ := step_eq_inr hstep
      obtain ⟨ls, hfollow, hplace⟩ | ⟨hfollow, ls, hnext, hplace⟩ := hway
      · exact .follow hpos hdata hpiece hfollow (hplace ▸ ih)
      · exact .succeed hpos hdata hpiece hfollow hnext (hplace ▸ ih)

/-- Every place on the way is reached by the loop. -/
theorem Leads.reaches {p p' : Place n} (h : Leads M map hdg p p') (hk : k.place = p) :
    ∃ k', Loop.Reaches (step M map nextpt hdg w) k k' ∧ k'.place = p' := by
  induction h generalizing k with
  | refl => exact ⟨k, .refl k, hk⟩
  | @follow p p' c ls hpos hdata hpiece hfollow _ ih =>
      subst hk
      obtain ⟨k', hreach, hplace⟩ :=
        @ih { k with laneseg := ls, route := k.route ++ [k.laneseg] } rfl
      exact ⟨k', .head (step_of_follow hpos hdata hpiece hfollow) hreach, hplace⟩
  | @succeed p p' c ls hpos hdata hpiece hfollow hnext _ ih =>
      subst hk
      obtain ⟨k', hreach, hplace⟩ :=
        @ih ⟨k.leftS - c.last.s, ls, ls, k.route ++ [k.laneseg]⟩ rfl
      exact ⟨k', .head (step_of_succeed hpos hdata hpiece hfollow hnext) hreach, hplace⟩

end Rounds

/-- A call ends and leaves the caller's variables alone unless it finds a point, exactly when
the length ends on a segment; the one other case is a heading that the conversion to radians
keeps, with a length that goes beyond the end. -/
theorem nullOnlyBeyond_iff (M : Libm) (map : Hdmap n m) (ls : Fin n) (s : ℚ)
    (spt nextpt : SegmentPoint) (hdg w : ℚ) :
    NullOnlyBeyond M map ls s spt nextpt hdg w ↔
      EndsOnSegment M map (radHeading M hdg) ⟨s + spt.s, ls, ls⟩ ∨
        (radHeading M hdg = hdg ∧ GoesBeyond M map (radHeading M hdg) ⟨s + spt.s, ls, ls⟩) := by
  constructor
  · rintro ⟨r, hr, hnull⟩
    obtain ⟨k, hreach, hend⟩ := Loop.returns_iff.mp hr
    cases step_eq_inl hend with
    | inl hpoint =>
        obtain ⟨hpos, c, hdata, hpiece⟩ := hpoint
        exact .inl ⟨k.place, c, .of_reaches hreach, hpos, hdata, hpiece⟩
    | inr hnone =>
        obtain ⟨hbeyond, -, hhdg, -⟩ := hnull hnone.1
        exact .inr ⟨hnone.2.symm.trans hhdg, hbeyond⟩
  · rintro (⟨p, c, hleads, hpos, hdata, hpiece⟩ | ⟨hkeep, hbeyond⟩)
    · obtain ⟨k, hreach, rfl⟩ := hleads.reaches (k := .start ls s spt) rfl
      obtain ⟨⟨start, e⟩, hpiece⟩ := Option.isSome_iff_exists.mp hpiece
      have hend := Loop.returns_iff.mpr ⟨k, hreach, step_of_piece hpos hdata hpiece⟩
      exact ⟨_, hend, nofun⟩
    · obtain ⟨p, c, hleads, hpos, hdata, hlast, hfollow, hnext⟩ := id hbeyond
      obtain ⟨k, hreach, rfl⟩ := hleads.reaches (k := .start ls s spt) rfl
      have hpiece : c.piece k.leftS = none := if_pos hlast
      have hend := Loop.returns_iff.mpr
        ⟨k, hreach, step_of_end hpos hdata hpiece hfollow hnext⟩
      exact ⟨_, hend, fun _ => ⟨hbeyond, rfl, hkeep, rfl⟩⟩

/-! ## The end of the walk -/

/-- Segments beside each other belong to the same cross section of the road, and the next
segment of a lane to the next one. -/
structure CrossSections (map : Hdmap n m) where
  number : Fin n → ℕ
  insider : ∀ ls ls', insideLaneseg map ls = some ls' → number ls' = number ls
  outsider : ∀ ls ls', outsideLaneseg map ls = some ls' → number ls' = number ls
  next : ∀ ls ls', nextLaneseg map ls = some ls' → number ls' = number ls + 1

theorem CrossSections.follow (sect : CrossSections map) {ls ls' : Fin n}
    (h : followLaneseg map ls = some ls') : sect.number ls' = sect.number ls + 1 := by
  rw [followLaneseg, Option.or_eq_some_iff, Option.or_eq_some_iff] at h
  obtain h | ⟨-, h | ⟨-, h⟩⟩ := h
  · exact sect.next ls ls' h
  · obtain ⟨nb, hnb, h⟩ := Option.bind_eq_some_iff.mp h
    rw [sect.next nb ls' h, sect.insider ls nb hnb]
  · obtain ⟨nb, hnb, h⟩ := Option.bind_eq_some_iff.mp h
    rw [sect.next nb ls' h, sect.outsider ls nb hnb]

/-- The last point of every segment has a positive `s`. -/
def PositiveEnds (map : Hdmap n m) : Prop :=
  ∀ ls c, (map.laneseg ls).data = some c → 0 < c.last.s

/-- The segments of a map are finitely many, so their ends stay away from 0. -/
theorem PositiveEnds.exists_le (h : PositiveEnds map) :
    ∃ δ : ℚ, 0 < δ ∧ ∀ ls c, (map.laneseg ls).data = some c → δ ≤ c.last.s := by
  have hbound : ∀ l : List (Fin n), ∃ δ : ℚ, 0 < δ ∧
      ∀ ls ∈ l, ∀ c, (map.laneseg ls).data = some c → δ ≤ c.last.s := by
    intro l
    induction l with
    | nil => exact ⟨1, one_pos, nofun⟩
    | cons ls l ih =>
        obtain ⟨δ, hδ, hl⟩ := ih
        cases hdata : (map.laneseg ls).data with
        | none =>
            refine ⟨δ, hδ, List.forall_mem_cons.mpr ⟨fun c hc => ?_, hl⟩⟩
            rw [hdata] at hc
            cases hc
        | some c =>
            refine ⟨min δ c.last.s, lt_min hδ (h ls c hdata), List.forall_mem_cons.mpr ⟨?_, ?_⟩⟩
            · intro c' hc'
              rw [hdata] at hc'
              cases hc'
              exact min_le_right ..
            · exact fun ls' hls' c' hc' => (min_le_left ..).trans (hl ls' hls' c' hc')
  obtain ⟨δ, hδ, hall⟩ := hbound (List.finRange n)
  exact ⟨δ, hδ, fun ls => hall ls (List.mem_finRange ls)⟩

/-- On a map with cross sections and positive ends every call comes to an end, also where
lanes succeed each other in a circle: a new lane costs length, the same road has finitely
many sections. Numbers are exact: the length left gets smaller without rounding. -/
theorem getAdcAndPoint_ends (sect : CrossSections map) (hpos : PositiveEnds map) (ls : Fin n)
    (s : ℚ) (spt nextpt : SegmentPoint) (hdg w : ℚ) :
    ∃ fuel r, getAdcAndPoint M map fuel ls s spt nextpt hdg w = some r := by
  obtain ⟨δ, hδ, hends⟩ := hpos.exists_le
  let measure (k : Walk n) : ℕ × ℕ :=
    (⌈k.leftS / δ⌉₊, Finset.univ.sup sect.number - sect.number k.laneseg)
  have hwf : WellFounded (Prod.Lex (· < ·) (· < ·) : ℕ × ℕ → ℕ × ℕ → Prop) :=
    WellFounded.prod_lex wellFounded_lt wellFounded_lt
  have hround : ∀ k k' : Walk n, True →
      step M map nextpt (radHeading M hdg) w k = .inr k' →
        True ∧ Prod.Lex (· < ·) (· < ·) (measure k') (measure k) := by
    intro k k' _ hstep
    refine ⟨trivial, ?_⟩
    obtain ⟨hleft, c, hdata, -, ⟨ls, hfollow, hplace⟩ | ⟨-, ls, -, hplace⟩⟩ := step_eq_inr hstep
    · have hleft' : k'.leftS = k.leftS := congrArg Place.leftS hplace
      have hls : k'.laneseg = ls := congrArg Place.laneseg hplace
      have hnum : sect.number k'.laneseg = sect.number k.laneseg + 1 := hls ▸ sect.follow hfollow
      have hle : sect.number k'.laneseg ≤ Finset.univ.sup sect.number :=
        Finset.le_sup (Finset.mem_univ _)
      simp only [measure, hleft']
      exact .right _ (by omega)
    · have hleft' : k'.leftS = k.leftS - c.last.s := congrArg Place.leftS hplace
      refine .left _ _ ?_
      have hcost : k'.leftS / δ ≤ k.leftS / δ - 1 := by
        rw [hleft', div_le_iff₀ hδ, sub_mul, div_mul_cancel₀ _ hδ.ne', one_mul]
        exact sub_le_sub_left (hends k.laneseg c hdata) _
      have hceil : ⌈k'.leftS / δ⌉₊ ≤ ⌈k.leftS / δ⌉₊ - 1 := by
        refine (Nat.ceil_mono hcost).trans (le_of_eq ?_)
        exact_mod_cast Nat.ceil_sub_natCast (k.leftS / δ) 1
      have hone : 0 < ⌈k.leftS / δ⌉₊ := Nat.ceil_pos.mpr (div_pos hleft hδ)
      exact hceil.trans_lt (Nat.sub_lt hone one_pos)
  obtain ⟨r, fuel, hr⟩ := Loop.exists_returns hwf measure hround
    (s := Walk.start ls s spt) trivial
  exact ⟨fuel, r, hr⟩

/-! ## A length that ends with the lane -/

/-- Rational stand-ins for `<math.h>`. -/
def decimalLibm : Libm where
  pi := 3141592653589793 / 10 ^ 15
  sqrt x := (Nat.sqrt (x.num.toNat * x.den) : ℕ) / (x.den : ℚ)
  atan2 y x := y / x
  fmod x y := x - y * ⌊x / y⌋
  sqrt_nonneg x := by positivity

/-- One lane of 10 m along the x axis, with one segment. -/
def oneLane : Hdmap 1 1 where
  laneseg _ := ⟨none, none, some 0, some ⟨⟨⟨0, 0⟩, 3, 0⟩, ⟨⟨10, 0⟩, 3, 10⟩, []⟩⟩
  lane _ := ⟨[], 0, 1, le_rfl⟩

/-- Two lanes that succeed each other, of two segments each. -/
def circle : Hdmap 4 2 where
  laneseg ls := ⟨none, none, some (if ls.val < 2 then 0 else 1),
    some ⟨⟨⟨0, 0⟩, 3, 0⟩, ⟨⟨10, 0⟩, 3, 10⟩, []⟩⟩
  lane l := if l = 0 then ⟨[some 1], 0, 2, by decide⟩ else ⟨[some 0], 2, 2, by decide⟩

/-- Several rounds end as well. -/
theorem getAdcAndPoint_ends_circle : ∃ fuel r,
    getAdcAndPoint decimalLibm circle fuel 0 95 ⟨⟨0, 0⟩, 0⟩ ⟨⟨0, 0⟩, 0⟩ 90 3 = some r :=
  getAdcAndPoint_ends ⟨fun ls => ls.val % 2, by decide, by decide, by decide⟩
    (by rintro ls _ ⟨⟩; decide +kernel) 0 95 _ _ 90 3

/-- From the start of a lane its whole length ahead: null, and the heading north has become
a quarter turn in radians. -/
theorem not_nullOnlyBeyond_oneLane :
    ¬ NullOnlyBeyond decimalLibm oneLane 0 10 ⟨⟨0, 0⟩, 0⟩ ⟨⟨0, 0⟩, 0⟩ 0 3 := by
  rintro ⟨r, hr, hnull⟩
  have hrun : getAdcAndPoint decimalLibm oneLane 1 0 10 ⟨⟨0, 0⟩, 0⟩ ⟨⟨0, 0⟩, 0⟩ 0 3 =
      some ⟨none, ⟨⟨0, 0⟩, 0⟩, radHeading decimalLibm 0, 3, [0]⟩ := by decide +kernel
  have heq := Loop.Returns.unique hr ⟨1, hrun⟩
  subst heq
  have hhdg : radHeading decimalLibm 0 = 0 := (hnull rfl).2.2.1
  exact absurd hhdg (by decide +kernel)

end V2I.AdcPoint
