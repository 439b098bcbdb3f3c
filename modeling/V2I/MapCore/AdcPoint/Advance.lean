import V2I.MapCore.AdcPoint.Walk

/-!
# V2I.MapCore.AdcPoint.Advance

How far `get_adc_and_point` moves along one lane. `s` is counted from the start of the lane
and goes on over its segments, so the walk looks for the piece of the centre line with
`spt.s + s` on it. On a piece that is shorter than the difference of `s` between its ends
the rest is rescaled to the length of the piece and added to the start's `s` as it is: the
point handed back lies behind the one asked for, and the next call starts from there.
-/

namespace V2I.AdcPoint

open List

variable {M : Libm} {n m : ℕ} {map : Hdmap n m}

/-! ## Pieces -/

/-- The points of a centre line have increasing `s`. -/
def CenterPts.Increasing (c : CenterPts) : Prop := c.points.Pairwise fun p q => p.s < q.s

theorem getLastD_mem (q : LaneBoundaryPoint) (qs : List LaneBoundaryPoint) :
    qs.getLastD q ∈ q :: qs := by
  induction qs generalizing q with
  | nil => exact mem_cons_self
  | cons q' qs ih =>
      rw [getLastD_cons]
      exact mem_cons_of_mem _ (ih q')

theorem CenterPts.last_mem (c : CenterPts) : c.last ∈ c.second :: c.rest :=
  getLastD_mem c.second c.rest

variable {q : LaneBoundaryPoint}

theorem le_getLastD {qs : List LaneBoundaryPoint} (h : (q :: qs).Pairwise fun p q => p.s < q.s) :
    ∀ p ∈ q :: qs, p.s ≤ (qs.getLastD q).s := by
  induction qs generalizing q with
  | nil => exact forall_mem_singleton.mpr le_rfl
  | cons q' qs ih =>
      have htail := ih (pairwise_cons.mp h).2
      have hlt := (pairwise_cons.mp h).1 q' mem_cons_self
      rw [getLastD_cons]
      exact forall_mem_cons.mpr ⟨hlt.le.trans (htail q' mem_cons_self), htail⟩

variable {p : LaneBoundaryPoint} {c : CenterPts}

theorem CenterPts.Increasing.le_last (h : c.Increasing) (hp : p ∈ c.second :: c.rest) :
    p.s ≤ c.last.s :=
  le_getLastD (pairwise_cons.mp h).2 p hp

theorem CenterPts.Increasing.first_lt_last (h : c.Increasing) : c.first.s < c.last.s :=
  (pairwise_cons.mp h).1 _ c.last_mem

variable {leftS : ℚ} {es : List LaneBoundaryPoint} {start : LaneBoundaryPoint}

/-- What the search for a piece finds. -/
theorem findPiece_eq_some (hinc : (start :: es).Pairwise fun p q => p.s < q.s)
    (h : findPiece leftS start es = some (p, q)) : p.s < q.s ∧ leftS < q.s ∧ q ∈ es := by
  induction es generalizing start with
  | nil => cases h
  | cons e es ih =>
      rw [findPiece] at h
      split at h
      · rename_i hlt
        cases h
        exact ⟨(pairwise_cons.mp hinc).1 q mem_cons_self, hlt, mem_cons_self⟩
      · obtain ⟨hpq, hlt, hmem⟩ := ih (pairwise_cons.mp hinc).2 h
        exact ⟨hpq, hlt, mem_cons_of_mem _ hmem⟩

theorem findPiece_eq_none (h : findPiece leftS start es = none) : ∀ e ∈ es, e.s ≤ leftS := by
  induction es generalizing start with
  | nil => exact nofun
  | cons e es ih =>
      rw [findPiece] at h
      split at h
      · cases h
      · rename_i hlt
        exact forall_mem_cons.mpr ⟨not_lt.mp hlt, ih h⟩

theorem CenterPts.piece_eq_some (hinc : c.Increasing) (h : c.piece leftS = some (p, q)) :
    p.s < q.s ∧ leftS < q.s ∧ leftS < c.last.s := by
  rw [piece] at h
  split at h
  · cases h
  · obtain ⟨hpq, hlt, hmem⟩ := findPiece_eq_some hinc h
    exact ⟨hpq, hlt, hlt.trans_le (hinc.le_last hmem)⟩

theorem CenterPts.piece_eq_none (h : c.piece leftS = none) : c.last.s ≤ leftS := by
  rw [piece] at h
  split at h
  · rename_i hlt
    exact hlt.le
  · exact findPiece_eq_none h _ c.last_mem

/-- On a piece the way is as long as asked for unless the piece is shorter than its `s`. -/
theorem alongPiece_eq_iff (hpq : p.s < q.s) (hlt : leftS < q.s) :
    alongPiece M p q leftS = leftS - p.s ↔ q.s - p.s ≤ pointDistance M p q ∨ leftS = p.s := by
  have hlen : 0 ≤ pointDistance M p q := M.sqrt_nonneg _
  have hds : 0 < q.s - p.s := sub_pos.mpr hpq
  rw [alongPiece]
  by_cases hshort : pointDistance M p q < q.s - p.s
  · -- the rescaled rest never exceeds the piece
    have hle : (leftS - p.s) * pointDistance M p q / (q.s - p.s) ≤ pointDistance M p q := by
      rw [div_le_iff₀ hds, mul_comm]
      exact mul_le_mul_of_nonneg_left (by linarith) hlen
    rw [if_pos hshort, if_neg (not_lt.mpr hle), div_eq_iff hds.ne']
    constructor
    · intro heq
      have hzero : (leftS - p.s) * (pointDistance M p q - (q.s - p.s)) = 0 := by linarith
      cases mul_eq_zero.mp hzero with
      | inl h => exact .inr (sub_eq_zero.mp h)
      | inr h => exact absurd (sub_eq_zero.mp h) hshort.ne
    · rintro (h | h)
      · exact absurd hshort (not_lt.mpr h)
      · rw [h]
        ring
  · rw [if_neg hshort, if_neg (by linarith)]
    exact iff_of_true rfl (.inl (not_lt.mp hshort))

/-! ## Lanes -/

/-- The segments of a lane. -/
def InLane (map : Hdmap n m) (l : Fin m) (ls : Fin n) : Prop :=
  (map.lane l).lanesegs ≤ ls ∧ ls < (map.lane l).lanesegs + (map.lane l).size

/-- A well-formed lane: each of its segments has a centre line, and `s` increases along the
centre lines, from one segment to the next. -/
structure LaneLine (map : Hdmap n m) (l : Fin m) where
  line : Fin n → CenterPts
  lane : ∀ ls, InLane map l ls → (map.laneseg ls).lane = some l
  data : ∀ ls, InLane map l ls → (map.laneseg ls).data = some (line ls)
  increasing : ∀ ls, InLane map l ls → (line ls).Increasing
  joined : ∀ ls ls' : Fin n, InLane map l ls → InLane map l ls' → ls'.val = ls + 1 →
    (line ls).last.s ≤ (line ls').first.s

namespace LaneLine

variable {l : Fin m} (L : LaneLine map l)

/-- `t` lies before the end of the lane. -/
def EndsInLane (t : ℚ) : Prop := ∃ ls, InLane map l ls ∧ t < (L.line ls).last.s

/-- `t` lies behind all segments before `ls`. -/
def Past (ls : Fin n) (t : ℚ) : Prop :=
  ∀ ls', InLane map l ls' → ls' < ls → (L.line ls').last.s ≤ t

/-- The piece of the centre line with `t` on it. -/
def Holds (t : ℚ) (ls : Fin n) (p q : LaneBoundaryPoint) : Prop :=
  InLane map l ls ∧ L.Past ls t ∧ (L.line ls).piece t = some (p, q)

variable {ls : Fin n}

theorem Holds.unique {t : ℚ} {ls' : Fin n} {p' q' : LaneBoundaryPoint} (h : L.Holds t ls p q)
    (h' : L.Holds t ls' p' q') : ls = ls' ∧ p = p' ∧ q = q' := by
  obtain ⟨hin, hpast, hpiece⟩ := h
  obtain ⟨hin', hpast', hpiece'⟩ := h'
  have hlast := (CenterPts.piece_eq_some (L.increasing ls hin) hpiece).2.2
  have hlast' := (CenterPts.piece_eq_some (L.increasing ls' hin') hpiece').2.2
  rcases lt_trichotomy ls ls' with hlt | heq | hgt
  · exact absurd hlast (not_lt.mpr (hpast' ls hin hlt))
  · subst heq
    have hpq := Option.some.inj (hpiece.symm.trans hpiece')
    exact ⟨rfl, congrArg Prod.fst hpq, congrArg Prod.snd hpq⟩
  · exact absurd hlast' (not_lt.mpr (hpast ls' hin' hgt))

/-- Behind the end of a segment the walk goes on to the next one of the lane. -/
theorem nextLaneseg_eq (L : LaneLine map l) {ls' : Fin n} (hin : InLane map l ls)
    (hin' : InLane map l ls') (hsucc : ls'.val = ls + 1) : nextLaneseg map ls = some ls' := by
  have hlt : ls.val + 1 < (map.lane l).lanesegs + (map.lane l).size := hsucc ▸ hin'.2
  have hrange : (map.lane l).lanesegs ≤ ls ∧ ls < (map.lane l).lanesegs + (map.lane l).size := hin
  have hsize : (map.lane l).size ≠ 0 := by omega
  have hls : (⟨ls + 1, hlt.trans_le (map.lane l).size_le⟩ : Fin n) = ls' := Fin.ext hsucc.symm
  simp only [nextLaneseg, L.lane ls hin]
  rw [if_neg hsize, if_pos hrange, dif_pos hlt, hls, L.data ls' hin']
  rfl

/-- The walk along a lane ends on the piece with `t` on it. -/
theorem exists_returns {t : ℚ} (hpos : 0 < t) (hend : L.EndsInLane t) (hin : InLane map l ls)
    (hpast : L.Past ls t) :
    ∃ ls' p q, L.Holds t ls' p q ∧ ∀ nextpt hdg w originLs route, ∃ route',
      Loop.Returns (step M map nextpt hdg w) ⟨t, ls, originLs, route⟩
        ⟨some ls', pointOnPiece M p q t, pieceHeading M p q, p.width, route'⟩ := by
  obtain ⟨last, hlast, htlast⟩ := hend
  induction hk : last.val + 1 - ls generalizing ls with
  | zero =>
      -- the segment lies behind the one that ends behind `t`
      exact absurd htlast (not_lt.mpr (hpast last hlast (by omega)))
  | succ k ih =>
      cases hpiece : (L.line ls).piece t with
      | some pq =>
          exact ⟨ls, pq.1, pq.2, ⟨hin, hpast, hpiece⟩, fun nextpt hdg w originLs route =>
            ⟨_, .of_inl (step_of_piece hpos (L.data ls hin) hpiece)⟩⟩
      | none =>
          have hle := CenterPts.piece_eq_none hpiece
          have hne : last.val ≠ ls := by
            intro heq
            rw [Fin.ext heq] at htlast
            exact absurd htlast (not_lt.mpr hle)
          have hnext : ls.val + 1 < n := by omega
          have hin' : InLane map l ⟨ls + 1, hnext⟩ := by
            have h1 := hin.1
            have h2 := hlast.2
            exact ⟨Nat.le_succ_of_le h1, by simp only; omega⟩
          have hpast' : L.Past ⟨ls + 1, hnext⟩ t := by
            intro ls' hls' hlt
            cases Nat.lt_succ_iff_lt_or_eq.mp hlt with
            | inl hlt => exact hpast ls' hls' hlt
            | inr heq => exact (Fin.ext heq : ls' = ls) ▸ hle
          obtain ⟨ls', p, q, hholds, hret⟩ := ih hin' hpast' (by simp only; omega)
          refine ⟨ls', p, q, hholds, fun nextpt hdg w originLs route => ?_⟩
          obtain ⟨route', hret⟩ := hret nextpt hdg w originLs (route ++ [ls])
          have hfollow : followLaneseg map ls = some ⟨ls + 1, hnext⟩ := by
            rw [followLaneseg, L.nextLaneseg_eq hin hin' rfl, Option.some_or]
          exact ⟨route', .head (step_of_follow hpos (L.data ls hin) hpiece hfollow) hret⟩

/-- Behind the first point of a segment all segments before it are passed. -/
theorem past_of_first_le (hin : InLane map l ls) {t : ℚ} (hfirst : (L.line ls).first.s ≤ t) :
    L.Past ls t := by
  intro ls' hin' hlt
  refine le_trans ?_ hfirst
  induction hk : ls.val - ls' generalizing ls' with
  | zero => omega
  | succ k ih =>
      have hnext : ls'.val + 1 < n := by omega
      have hin'' : InLane map l ⟨ls' + 1, hnext⟩ := by
        have h1 := hin'.1
        have h2 := hin.2
        exact ⟨Nat.le_succ_of_le h1, by simp only; omega⟩
      have hjoin := L.joined ls' ⟨ls' + 1, hnext⟩ hin' hin'' rfl
      by_cases heq : ls'.val + 1 = ls
      · exact (Fin.ext heq : (⟨ls' + 1, hnext⟩ : Fin n) = ls) ▸ hjoin
      · have hrest := ih ⟨ls' + 1, hnext⟩ hin'' (Fin.lt_def.mpr (by simp only; omega))
          (by simp only; omega)
        exact hjoin.trans ((L.increasing _ hin'').first_lt_last.le.trans hrest)

end LaneLine

/-! ## The law -/

/-- `ls->get_adc_and_point(s, spt, nextpt, hdg, w, route)` ends with `r`. -/
def Returned (M : Libm) (map : Hdmap n m) (ls : Fin n) (s : ℚ) (spt nextpt : SegmentPoint)
    (hdg w : ℚ) (r : Outcome n) : Prop :=
  ∃ fuel, getAdcAndPoint M map fuel ls s spt nextpt hdg w = some r

/-- A call for `s` returns a point of the lane that is `s` further and so never further back, and a
second call from there for `s'` returns the point that one call for `s + s'` does. -/
def AdvancesExactly (M : Libm) (map : Hdmap n m) (l : Fin m) (ls : Fin n) (s s' : ℚ)
    (spt nextpt : SegmentPoint) (hdg w : ℚ) : Prop :=
  ∃ r ls₁, Returned M map ls s spt nextpt hdg w r ∧ r.laneseg = some ls₁ ∧ InLane map l ls₁ ∧
    r.nextpt.s = spt.s + s ∧ spt.s ≤ r.nextpt.s ∧
    ∀ nextpt' hdg' w', ∃ r₁ r₂, Returned M map ls₁ s' r.nextpt nextpt' hdg' w' r₁ ∧
      Returned M map ls (s + s') spt nextpt hdg w r₂ ∧
      r₁.laneseg = r₂.laneseg ∧ r₁.nextpt = r₂.nextpt

/-- The piece that `t` falls on is as long as `s` grows along it, or `t` is its start. -/
def LaneLine.Uncompressed {l : Fin m} (M : Libm) (L : LaneLine map l) (t : ℚ) : Prop :=
  ∀ ls p q, L.Holds t ls p q → q.s - p.s ≤ pointDistance M p q ∨ t = p.s

section Law

variable {l : Fin m} (L : LaneLine map l) {ls : Fin n} {s : ℚ} {spt nextpt : SegmentPoint} {hdg w : ℚ}

/-- A call of positive reach within a lane. -/
theorem LaneLine.returned (ls : Fin n) (s : ℚ) (spt : SegmentPoint) (hin : InLane map l ls)
    (hpast : L.Past ls (spt.s + s)) (hpos : 0 < spt.s + s) (hend : L.EndsInLane (spt.s + s)) :
    ∃ ls' p q, L.Holds (spt.s + s) ls' p q ∧ ∀ nextpt hdg w, ∃ route,
      Returned M map ls s spt nextpt hdg w
        ⟨some ls', pointOnPiece M p q (spt.s + s), pieceHeading M p q, p.width, route⟩ := by
  obtain ⟨ls', p, q, hholds, hret⟩ := L.exists_returns (M := M) hpos hend hin hpast
  refine ⟨ls', p, q, hholds, fun nextpt hdg w => ?_⟩
  obtain ⟨route, hret⟩ := hret nextpt (radHeading M hdg) w ls []
  rw [add_comm spt.s s] at hret ⊢
  exact ⟨route, hret⟩

/-- The point handed back is as far ahead as asked for, unless its piece is compressed. -/
theorem LaneLine.pointOnPiece_s_iff {t : ℚ} (hholds : L.Holds t ls p q) :
    (pointOnPiece M p q t).s = t ↔ L.Uncompressed M t := by
  obtain ⟨hpq, hlt, -⟩ := CenterPts.piece_eq_some (L.increasing ls hholds.1) hholds.2.2
  have hs : (pointOnPiece M p q t).s = t ↔ alongPiece M p q t = t - p.s := by
    rw [pointOnPiece]
    exact eq_sub_iff_add_eq'.symm
  rw [hs, alongPiece_eq_iff hpq hlt]
  constructor
  · intro h ls' p' q' hholds'
    obtain ⟨-, rfl, rfl⟩ := hholds.unique L hholds'
    exact h
  · exact fun h => h ls p q hholds

/-- On a well-formed lane the law holds exactly for a reach that is positive and does not end
within a compressed piece. -/
theorem advancesExactly_iff_uncompressed (L : LaneLine map l) (hin : InLane map l ls)
    (hfirst : (L.line ls).first.s ≤ spt.s) (hs : 0 ≤ s) {s' : ℚ} (hs' : 0 ≤ s')
    (hend : L.EndsInLane (spt.s + s + s')) (nextpt : SegmentPoint) (hdg w : ℚ) :
    AdvancesExactly M map l ls s s' spt nextpt hdg w ↔
      0 < spt.s + s ∧ L.Uncompressed M (spt.s + s) := by
  have hpast : ∀ t, spt.s ≤ t → L.Past ls t :=
    fun t ht => L.past_of_first_le hin (hfirst.trans ht)
  have hend₁ : L.EndsInLane (spt.s + s) :=
    hend.imp fun _ h => ⟨h.1, (le_add_of_nonneg_right hs').trans_lt h.2⟩
  by_cases hpos : 0 < spt.s + s
  · obtain ⟨ls', p, q, hholds, hret⟩ :=
      L.returned (M := M) ls s spt hin (hpast _ (le_add_of_nonneg_right hs)) hpos hend₁
    obtain ⟨route, hret⟩ := hret nextpt hdg w
    rw [← L.pointOnPiece_s_iff hholds]
    constructor
    · rintro ⟨r, ls₁, hr, -, -, hadv, -⟩
      have heq := Loop.Returns.unique hr hret
      subst heq
      exact ⟨hpos, hadv⟩
    · rintro ⟨-, hadv⟩
      refine ⟨_, ls', hret, rfl, hholds.1, hadv, ?_, fun nextpt' hdg' w' => ?_⟩
      · rw [hadv]
        exact le_add_of_nonneg_right hs
      · -- both calls look for the piece with `spt.s + s + s'` on it
        have hpos' : 0 < spt.s + s + s' := add_pos_of_pos_of_nonneg hpos hs'
        have hpast' : L.Past ls' (spt.s + s + s') := fun k hk hlt =>
          (hholds.2.1 k hk hlt).trans (le_add_of_nonneg_right hs')
        obtain ⟨ls₁, p₁, q₁, hholds₁, hret₁⟩ := L.returned (M := M) ls' s'
          (pointOnPiece M p q (spt.s + s)) hholds.1 (hadv.symm ▸ hpast')
          (hadv.symm ▸ hpos') (hadv.symm ▸ hend)
        obtain ⟨ls₂, p₂, q₂, hholds₂, hret₂⟩ := L.returned (M := M) ls (s + s') spt hin
          (hpast _ (le_add_of_nonneg_right (add_nonneg hs hs')))
          (by rwa [← add_assoc]) (by rwa [← add_assoc])
        rw [hadv] at hholds₁ hret₁
        rw [← add_assoc] at hholds₂ hret₂
        obtain ⟨rfl, rfl, rfl⟩ := hholds₁.unique L hholds₂
        obtain ⟨route₁, hret₁⟩ := hret₁ nextpt' hdg' w'
        obtain ⟨route₂, hret₂⟩ := hret₂ nextpt hdg w
        exact ⟨_, _, hret₁, hret₂, rfl, rfl⟩
  · -- a reach of 0 gives the null pointer
    refine iff_of_false ?_ fun h => hpos h.1
    rintro ⟨r, ls₁, hr, hls₁, -⟩
    have hleft : (Walk.start ls s spt).leftS ≤ 0 := by
      change s + spt.s ≤ 0
      linarith
    have hstep : step M map nextpt (radHeading M hdg) w (.start ls s spt) =
        .inl ⟨none, nextpt, radHeading M hdg, w, []⟩ := if_pos hleft
    have hnull : Returned M map ls s spt nextpt hdg w ⟨none, nextpt, radHeading M hdg, w, []⟩ :=
      ⟨1, Loop.run_succ_of_inl hstep 0⟩
    have heq := Loop.Returns.unique hr hnull
    subst heq
    cases hls₁

end Law

/-! ## Straight and inner lanes -/

/-- A lane of two segments of 10 m, with a corner between them. -/
def cornerLine (ls : Fin 2) : CenterPts :=
  if ls.val = 0 then ⟨⟨⟨0, 0⟩, 3, 0⟩, ⟨⟨5, 0⟩, 3, 5⟩, [⟨⟨10, 0⟩, 3, 10⟩]⟩
  else ⟨⟨⟨10, 0⟩, 3, 10⟩, ⟨⟨10, 10⟩, 3, 20⟩, []⟩

def cornerLane : Hdmap 2 1 where
  laneseg ls := ⟨none, none, some (.last 0), some (cornerLine ls)⟩
  lane _ := ⟨[], 0, 2, le_rfl⟩

def cornerLaneLine : LaneLine cornerLane (.last 0) where
  line := cornerLine
  lane _ _ := rfl
  data _ _ := rfl
  increasing ls _ := by
    rw [cornerLine]
    split <;> simp [CenterPts.Increasing, CenterPts.points] <;> norm_num
  joined ls ls' _ _ := (by decide +kernel : ∀ ls ls' : Fin 2, ls'.val = ls + 1 →
    (cornerLine ls).last.s ≤ (cornerLine ls').first.s) ls ls'

/-- From the first segment round the corner, and on. -/
theorem advancesExactly_iff_uncompressed_corner :
    AdvancesExactly decimalLibm cornerLane 0 0 10 4 ⟨⟨2, 0⟩, 2⟩ ⟨⟨0, 0⟩, 0⟩ 90 3 ↔
      0 < (2 : ℚ) + 10 ∧ cornerLaneLine.Uncompressed decimalLibm (2 + 10) :=
  advancesExactly_iff_uncompressed cornerLaneLine ⟨le_rfl, Nat.two_pos⟩
    (by decide +kernel) (by decide +kernel) (by decide +kernel)
    ⟨1, ⟨Nat.zero_le _, Nat.one_lt_two⟩, by decide +kernel⟩ ⟨⟨0, 0⟩, 0⟩ 90 3

/-- The centre line of a lane of 10 m in `s` that is `x` m long. -/
def shortLine (x : ℚ) : CenterPts := ⟨⟨⟨0, 0⟩, 3, 0⟩, ⟨⟨x, 0⟩, 3, 10⟩, []⟩

/-- A map of this one lane. -/
def shortLane (x : ℚ) : Hdmap 1 1 where
  laneseg _ := ⟨none, none, some ⟨0, Nat.one_pos⟩, some (shortLine x)⟩
  lane _ := ⟨[], 0, 1, Nat.le_refl 1⟩

theorem shortLine_increasing (x : ℚ) : (shortLine x).Increasing := by
  simp [CenterPts.Increasing, CenterPts.points, shortLine]

def shortLaneLine (x : ℚ) : LaneLine (shortLane x) ⟨0, Nat.one_pos⟩ where
  line _ := shortLine x
  lane _ _ := rfl
  data _ _ := rfl
  increasing _ _ := shortLine_increasing x
  joined ls ls' _ _ h :=
    absurd (Subsingleton.elim ls' ls) fun heq => Nat.succ_ne_self ls (heq ▸ h).symm

theorem inLane_shortLane (x : ℚ) : InLane (shortLane x) 0 0 := ⟨le_rfl, Nat.zero_lt_one⟩

/-- On the inner lane of a curve, 8 m long, a call for 5 m returns the point at 4 m. -/
theorem not_advancesExactly_inner :
    InLane (shortLane 8) 0 0 ∧ (shortLaneLine 8).EndsInLane (0 + 5 + 0) ∧
      ¬ AdvancesExactly decimalLibm (shortLane 8) 0 0 5 0 ⟨⟨0, 0⟩, 0⟩ ⟨⟨0, 0⟩, 0⟩ 90 3 := by
  refine ⟨inLane_shortLane 8, ⟨0, inLane_shortLane 8, by decide +kernel⟩, ?_⟩
  rintro ⟨r, ls₁, hr, -, -, hadv, -⟩
  have hrun : (getAdcAndPoint decimalLibm (shortLane 8) 1 0 5 ⟨⟨0, 0⟩, 0⟩ ⟨⟨0, 0⟩, 0⟩ 90 3).map
      (fun r => r.nextpt.s) = some 4 := by decide +kernel
  obtain ⟨r', hr', hs⟩ := Option.map_eq_some_iff.mp hrun
  have heq := Loop.Returns.unique hr ⟨1, hr'⟩
  rw [heq, hs] at hadv
  exact absurd hadv (by decide +kernel)

end V2I.AdcPoint
