import Mathlib.Algebra.Order.Field.Rat
import Mathlib.Algebra.Order.Ring.NNRat
import V2I.MapCore.HdmapQuery

/-!
# V2I.MapCore.HdmapQuery.Marks

Which queries unmark all they marked. `find_laneseg` clears the flags of other records than
it marked, so only a call that is rejected leaves no trace. `get_neareast_points` forgets the
points it skips as too far, `get_neareast_laneseg` and `find_laneseg_v1` return without
unmarking when they come to a lane segment without its data or its lane.
-/

namespace V2I.HdmapQuery

open Kdtree Option Function Machine

variable {K : Type} [Field K] [LinearOrder K] {tree : Kdtree.Tree K} {q : Point K}
  {selected : ℕ → Bool}

/-! ## One search -/

/-- The re-walk keeps the distance of the best node. -/
theorem rewalk_d (path : List (Kdtree.Tree K)) (b : Best K) (hb : b.d = tmp selected q b.nearest) :
    (rewalk selected q path b).d = tmp selected q (rewalk selected q path b).nearest := by
  have himprove : ∀ (b : Best K) (v : Node K), b.d = tmp selected q b.nearest →
      (improve selected q b v).d = tmp selected q (improve selected q b v).nearest := by
    intro b v hb
    unfold improve
    split
    · rfl
    · exact hb
  fun_induction rewalk selected q path b with
  | case1 b => exact hb
  | case2 path b ih => exact ih hb
  | case3 l v s r path b _ ih => exact ih (himprove b v hb)
  | case4 l v s r path b _ _ _ ih => exact ih (himprove b v hb)
  | case5 l v s r path b _ _ _ ih => exact ih (himprove b v hb)
  | case6 l v s r path b _ _ ih => exact ih hb

/-- **What a search hands back**: a node with its distance, and its mark is set. -/
theorem kdtree2dSearch_eq_some {found : Found K} (h : kdtree2dSearch selected q tree = some found) :
    ∃ v, found.nearest = some v ∧ found.dist = tmp selected q v ∧
      found.selected = update selected v.id true := by
  unfold kdtree2dSearch at h
  split at h
  · next l v s r path _ =>
      cases h
      exact ⟨_, rfl, rewalk_d path _ rfl, rfl⟩
  · cases h

/-! ## Restoring -/

theorem restore_apply (lanept : List ℕ) (selected : ℕ → Bool) (i : ℕ) :
    restore lanept selected i = if i ∈ lanept then false else selected i := by
  induction lanept generalizing selected with
  | nil => simp [restore]
  | cons j lanept ih =>
      rw [restore, List.foldl_cons]
      refine (ih (update selected j false)).trans ?_
      by_cases hij : i = j
      · subst hij
        simp
      · simp [hij]

variable {lanept : List ℕ}

theorem restore_eq_false (h : ∀ i, selected i = true ↔ i ∈ lanept) :
    restore lanept selected = fun _ => false := by
  funext i
  rw [restore_apply]
  split
  · rfl
  · next hi => exact Bool.eq_false_iff.mpr fun hsel => hi ((h i).mp hsel)

/-! ## The searches of a query -/

/-- None of up to `n` searches comes to a node that is `bad`, given its distance and whether it
was marked before, unless one before came to a node that makes it `stop`. -/
def Unhindered (tree : Kdtree.Tree K) (q : Point K) (stop : Node K → Prop)
    (bad : Node K → WithTop K → Bool → Prop) : ℕ → (ℕ → Bool) → Prop
  | 0, _ => True
  | n + 1, selected => ∀ found v, kdtree2dSearch selected q tree = some found →
      found.nearest = some v → ¬ bad v found.dist (selected v.id) ∧
        (¬ stop v → Unhindered tree q stop bad n found.selected)

variable {σ ρ : Type} {f : Node K → WithTop K → σ → Option (Next σ ρ)} {null : σ → ρ}
  {J : σ → Prop} {stop : Node K → Prop} {bad : Node K → WithTop K → Bool → Prop}

/-- The rounds of a query, whose state meets `J`: it returns without restoring at bad nodes
only, restores at nodes that make it stop, and goes on at the others. A node that is not
pushed is bad when its mark is new, and it is never pushed later. -/
structure Decides (f : Node K → WithTop K → σ → Option (Next σ ρ)) (J : σ → Prop)
    (stop : Node K → Prop) (bad : Node K → WithTop K → Bool → Prop) : Prop where
  leave : ∀ v d s r, J s → f v d s = some (.leave r) → ∀ marked, bad v d marked
  restore : ∀ v d s r, J s → f v d s = some (.restore r) → stop v ∧ ∀ marked, ¬ bad v d marked
  done : ∀ v d s s', J s → f v d s = some (.done s') → stop v ∧ ∀ marked, ¬ bad v d marked
  take : ∀ v d s s', J s → f v d s = some (.take s') →
    J s' ∧ ¬ stop v ∧ ∀ marked, ¬ bad v d marked
  skip : ∀ v d s s', J s → f v d s = some (.skip s') →
    J s' ∧ ¬ stop v ∧ ∀ marked, bad v d marked ↔ marked = false
  again : ∀ v d s s', J s → f v d s = some (.skip s') → ∀ v' s₁, v'.id = v.id → J s₁ →
    ∃ s₂, f v' ⊤ s₁ = some (.skip s₂)

omit [LinearOrder K] in
theorem tmp_of_selected {v : Node K} (h : selected v.id = true) : tmp selected q v = ⊤ := by
  rw [tmp, if_pos h]

variable {r : (ℕ → Bool) × (ρ ⊕ σ)}

/-- A node that was skipped keeps its mark to the end. -/
theorem rounds_keeps (hf : Decides f J stop bad) {j : ℕ}
    (hj : ∀ v s, v.id = j → J s → ∃ s', f v ⊤ s = some (.skip s')) {n : ℕ} {s : σ} (hs : J s)
    (hsel : selected j = true) (hnot : j ∉ lanept)
    (h : rounds tree q f null n selected lanept s = some r) : r.1 j = true := by
  induction n generalizing selected lanept s with
  | zero =>
      cases h
      simp [restore_apply, hnot, hsel]
  | succ n ih =>
      unfold rounds at h
      split at h
      · cases h
      · next found hfound =>
          obtain ⟨v, hv, hdist, hselected⟩ := kdtree2dSearch_eq_some hfound
          rw [hv] at h
          have hkept : found.selected j = true := by
            rw [hselected]
            by_cases heq : j = v.id <;> simp [heq, hsel]
          by_cases heq : v.id = j
          · obtain ⟨s', hskip⟩ := hj v s heq hs
            have htop : found.dist = ⊤ := hdist.trans (tmp_of_selected (heq ▸ hsel))
            simp only [htop, hskip] at h
            exact ih (hf.skip v ⊤ s s' hs hskip).1 hkept hnot h
          · have hnot' : j ∉ lanept ++ [v.id] := by simp [hnot, Ne.symm heq]
            simp only at h
            split at h
            · cases h
            · cases h
              exact hkept
            · cases h
              simp [restore_apply, hnot, Ne.symm heq, hkept]
            · next s' hnext => exact ih (hf.skip v _ s s' hs hnext).1 hkept hnot h
            · next s' hnext => exact ih (hf.take v _ s s' hs hnext).1 hkept hnot' h
            · cases h
              simp [restore_apply, hnot, Ne.symm heq, hkept]

/-- **When a query clears all marks**: from marks on nothing but the nodes pushed, it does if
and only if its searches are not hindered. -/
theorem rounds_clear_iff (hf : Decides f J stop bad) {n : ℕ} {s : σ} (hs : J s)
    (hsel : ∀ i, selected i = true ↔ i ∈ lanept)
    (h : rounds tree q f null n selected lanept s = some r) :
    (∀ i, r.1 i = false) ↔ Unhindered tree q stop bad n selected := by
  induction n generalizing selected lanept s with
  | zero =>
      cases h
      simp [Unhindered, restore_eq_false hsel]
  | succ n ih =>
      unfold rounds at h
      split at h
      · cases h
      · next found hfound =>
          obtain ⟨v, hv, hdist, hselected⟩ := kdtree2dSearch_eq_some hfound
          have hround : Unhindered tree q stop bad (n + 1) selected ↔
              ¬ bad v found.dist (selected v.id) ∧
                (¬ stop v → Unhindered tree q stop bad n found.selected) := by
            constructor
            · exact fun hun => hun found v hfound hv
            · intro hun found' v' hfound' hv'
              obtain rfl := some_inj.mp (hfound.symm.trans hfound')
              obtain rfl := some_inj.mp (hv.symm.trans hv')
              exact hun
          rw [hv] at h
          rw [hround]
          have hpushed : ∀ i, found.selected i = true ↔ i ∈ lanept ++ [v.id] := by
            intro i
            rw [hselected]
            by_cases heq : i = v.id <;> simp [heq, hsel]
          have hmarked : found.selected v.id = true := by
            rw [hselected, update_self]
          simp only at h
          split at h
          · cases h
          · next r' hnext =>
              cases h
              have hbad := hf.leave v _ s r' hs hnext (selected v.id)
              refine ⟨fun hclear => ?_, fun hun => absurd hbad hun.1⟩
              have hfalse : found.selected v.id = false := hclear v.id
              rw [hmarked] at hfalse
              cases hfalse
          · next r' hnext =>
              cases h
              obtain ⟨hstop, hbad⟩ := hf.restore v _ s r' hs hnext
              simp [restore_eq_false hpushed, hstop, hbad]
          · next s' hnext =>
              obtain ⟨hs', hstop, hbad⟩ := hf.skip v _ s s' hs hnext
              cases hv' : selected v.id with
              | true =>
                  have hsame : ∀ i, found.selected i = true ↔ i ∈ lanept := by
                    intro i
                    rw [hselected]
                    by_cases heq : i = v.id
                    · simp [heq, ← hsel, hv']
                    · simp [heq, hsel]
                  simp [ih hs' hsame h, hbad, hstop]
              | false =>
                  have hnot : v.id ∉ lanept := fun hmem => by simp [(hsel v.id).mpr hmem] at hv'
                  have hkept := rounds_keeps hf (hf.again v _ s s' hs hnext) hs' hmarked hnot h
                  refine ⟨fun hclear => ?_, fun hun => absurd ((hbad false).mpr rfl) hun.1⟩
                  rw [hclear v.id] at hkept
                  cases hkept
          · next s' hnext =>
              obtain ⟨hs', hstop, hbad⟩ := hf.take v _ s s' hs hnext
              simp [ih hs' hpushed h, hbad, hstop]
          · next s' hnext =>
              cases h
              obtain ⟨hstop, hbad⟩ := hf.done v _ s s' hs hnext
              simp [restore_eq_false hpushed, hstop, hbad]

/-! ## The four queries -/

namespace HdmapImpl

variable (m : HdmapImpl K) (c : Math K)

/-- `find_laneseg_v1` and `get_neareast_laneseg` stop at a node whose index is out of range or
whose lane segment runs in the direction `hdg`. -/
def stopsAt (hdg : K) (v : Node K) : Prop :=
  m.probe c hdg (m.bdyPoint v.id) = .outOfRange ∨ ∃ h, m.probe c hdg (m.bdyPoint v.id) = .along h

/-- They return without restoring at one whose lane segment has no data or no lane. -/
def lacksLane (hdg : K) (v : Node K) (_ : WithTop K) (_ : Bool) : Prop :=
  m.probe c hdg (m.bdyPoint v.id) = .noLane

/-- `get_neareast_points` stops at a node whose index is out of range. -/
def outOfRange (v : Node K) : Prop := m.lanesegs.length ≤ (m.bdyPoint v.id).lanesegIndex

/-- It does not push a point that is too far. -/
def newAndFar (distance : K) (v : Node K) (d : WithTop K) (marked : Bool) : Prop :=
  (m.bdyPoint v.id).lanesegIndex < m.lanesegs.length ∧ farther d distance ∧ marked = false

/-- The branches of a round of `get_neareast_points`. -/
theorem pointsRound_cases (distance : K) (v : Node K) (d : WithTop K)
    (points : StdMap ℕ (SegmentPoint K)) :
    (m.outOfRange v ∧ m.pointsRound distance v d points = some (.restore (-6, points))) ∨
      (¬ m.outOfRange v ∧ farther d distance ∧
        m.pointsRound distance v d points = some (.skip points)) ∨
      (¬ m.outOfRange v ∧ ¬ farther d distance ∧
        ∃ points', m.pointsRound distance v d points = some (.take points')) := by
  simp only [pointsRound, outOfRange]
  split_ifs with hlen hfar
  · exact .inl ⟨hlen, rfl⟩
  · exact .inr (.inl ⟨hlen, hfar, rfl⟩)
  · exact .inr (.inr ⟨hlen, hfar, _, rfl⟩)

theorem pointsRound_decides (distance : K) :
    Decides (m.pointsRound distance) (fun _ => True) m.outOfRange (m.newAndFar distance) := by
  constructor
  case again =>
    intro v d s s' _ h v' s₁ hid _
    obtain ⟨-, heq⟩ | ⟨hin, -, heq⟩ | ⟨-, -, _, heq⟩ := m.pointsRound_cases distance v d s <;>
      rw [heq] at h <;> cases h
    obtain ⟨hout, -⟩ | ⟨-, -, heq'⟩ | ⟨-, hnear, -⟩ := m.pointsRound_cases distance v' ⊤ s₁
    · rw [outOfRange, hid] at hout
      exact absurd hout hin
    · exact ⟨s₁, heq'⟩
    · exact absurd (.inr (WithTop.coe_lt_top _)) hnear
  all_goals
    intro v d s s' _ h
    obtain ⟨hout, heq⟩ | ⟨hin, hfar, heq⟩ | ⟨hin, hnear, _, heq⟩ := m.pointsRound_cases distance v d s <;>
      rw [heq] at h <;> cases h
  · exact ⟨hout, fun _ hbad => absurd hbad.1 (not_lt.mpr hout)⟩
  · exact ⟨trivial, hin, fun _ hbad => hnear hbad.2.1⟩
  · refine ⟨trivial, hin, fun marked => ?_⟩
    simp [newAndFar, hfar, not_le.mp hin]

/-- A round that follows `probe`: its state carries `hdg` in its first component. -/
def FollowsProbe {τ : Type} (f : Node K → WithTop K → K × τ → Option (Next (K × τ) ρ)) : Prop :=
  ∀ v d s next, f v d s = some next → match m.probe c s.1 (m.bdyPoint v.id) with
    | .outOfRange => ∃ r, next = .restore r
    | .noLane => ∃ r, next = .leave r
    | .along _ => ∃ s', next = .done s'
    | .other => ∃ s', next = .take s' ∧ s'.1 = s.1

theorem FollowsProbe.decides {τ : Type} {m : HdmapImpl K} {c : Math K}
    {f : Node K → WithTop K → K × τ → Option (Next (K × τ) ρ)} (hf : m.FollowsProbe c f) (hdg : K) :
    Decides f (fun s => s.1 = hdg) (m.stopsAt c hdg) (m.lacksLane c hdg) := by
  constructor
  all_goals
    rintro v d s s' rfl h
    have hnext := hf v d s _ h
    split at hnext <;> simp_all [stopsAt, lacksLane]

theorem lanesegV1Round_follows : m.FollowsProbe c (m.lanesegV1Round c) := by
  intro v d s next h
  simp only [lanesegV1Round] at h
  split at h <;> cases h <;> simp_all

/-- `find_boundary` never returns 0: it returns the type of a boundary or an error. -/
theorem boundaryAt_fst {ls : ℕ} {boundaryType : ℤ} {lspts : List (BoundaryPoint K)} {index : ℕ}
    {pt : Point3d K} {right : ℤ} {r : ℤ × ℤ}
    (h : m.boundaryAt ls boundaryType lspts index pt right = some r) :
    r.1 = boundaryType ∨ r.1 = -ENOTFOUND := by
  obtain ⟨point, -, h⟩ := bind_eq_some_iff.mp h
  obtain ⟨before, -, h⟩ := bind_eq_some_iff.mp h
  split at h
  · cases h
    exact .inl rfl
  · obtain ⟨after, -, h⟩ := bind_eq_some_iff.mp h
    split at h
    · cases h
      exact .inr rfl
    · split at h
      · cases h
        exact .inl rfl
      · obtain ⟨right', -, h⟩ := bind_eq_some_iff.mp h
        cases h
        exact .inl rfl

theorem findBoundary_ne_zero {ls : ℕ} {bpt : BoundaryPoint K} {pt : Point3d K} {right : ℤ}
    {r : ℤ × ℤ} (h : m.findBoundary ls bpt pt right = some r) : r.1 ≠ 0 := by
  obtain ⟨laneseg, -, h⟩ := bind_eq_some_iff.mp h
  split at h
  · cases h
    simp [ENOTAVAIL]
  · split at h
    · obtain hr | hr := m.boundaryAt_fst h <;> rw [hr] <;> decide
    · split at h
      · obtain hr | hr := m.boundaryAt_fst h <;> rw [hr] <;> decide
      · cases h
        simp [ENOTFOUND]

theorem lanesegRound_follows (src : Point3d K) : m.FollowsProbe c (m.lanesegRound c src) := by
  intro v d s next h
  simp only [lanesegRound] at h
  cases hprobe : m.probe c s.1 (m.bdyPoint v.id) with
  | other =>
      simp only [hprobe] at h
      obtain ⟨⟨boundaryType, right⟩, hfind, h⟩ := bind_eq_some_iff.mp h
      split at h
      · next hzero => exact absurd hzero (m.findBoundary_ne_zero hfind)
      · obtain ⟨laneseg, -, h⟩ := bind_eq_some_iff.mp h
        obtain ⟨data, -, h⟩ := bind_eq_some_iff.mp h
        obtain ⟨id, -, h⟩ := bind_eq_some_iff.mp h
        cases h
        exact ⟨_, rfl, rfl⟩
  | _ =>
      simp only [hprobe] at h
      cases h
      simp

variable {set' set : List (NearestLaneseg K)}

/-- `find_laneseg` leaves the mark of every end point it found. -/
theorem searchLanesegs_marks {n : ℕ} {selected' : ℕ → Bool}
    (h : m.searchLanesegs q n selected set = some (selected', set')) :
    (∀ j, selected j = true → selected' j = true) ∧ (0 < n → ∃ j, selected' j = true) := by
  induction n generalizing selected set with
  | zero =>
      cases h
      exact ⟨fun _ hj => hj, fun hn => absurd hn (lt_irrefl 0)⟩
  | succ n ih =>
      unfold searchLanesegs at h
      split at h
      · cases h
      · next found hfound =>
          obtain ⟨v, hv, -, hselected⟩ := kdtree2dSearch_eq_some hfound
          rw [hv] at h
          obtain ⟨hkeeps, -⟩ := ih h
          refine ⟨fun j hj => hkeeps j ?_, fun _ => ⟨v.id, hkeeps v.id ?_⟩⟩
          · rw [hselected]
            by_cases heq : j = v.id <;> simp [heq, hj]
          · rw [hselected, update_self]

theorem findLaneseg_marks {s s' : Marks} {x y : K} {count : Int32} {ret : ℤ}
    (hrejects : m.findLanesegRejects x y count = none)
    (h : m.findLaneseg s x y count set = some (s', ret, set')) : ∃ j, s'.laneseg j = true := by
  have hcount : count ≠ 0 ∧ m.lanesegs.length ≠ 0 := by
    unfold findLanesegRejects at hrejects
    grind
  simp only [findLaneseg, hrejects] at h
  split at h
  · split at h
    · cases h
    · next laneseg set'' hsearch =>
        obtain ⟨startLeft, -, heq⟩ := map_eq_some_iff.mp h
        cases heq
        refine (m.searchLanesegs_marks hsearch).2 ?_
        split_ifs with hall
        · exact Nat.pos_of_ne_zero hcount.2
        · rw [not_or, Int32.lt_iff_toInt_lt] at hall
          have hzero : count.toInt ≠ 0 := fun hzero => hcount.1 (Int32.toInt_inj.mp hzero)
          have hnonneg : ¬ count.toInt < 0 := hall.1
          omega
  · cases h

/-! ## Runs -/

/-- The flags of a map whose flags are all clear. -/
def clear : Marks := ⟨fun _ => false, fun _ => false, m.startLeft⟩

end HdmapImpl

/-- No node is marked. -/
def Marks.Clear (s : Marks) : Prop := (∀ i, s.laneseg i = false) ∧ ∀ i, s.bdy i = false

/-- The calls that unmark what they mark: `find_laneseg` when it is rejected,
`get_neareast_points` when no search comes to an unmarked point that is too far, and the other
two when none comes to a lane segment without data or lane, as long as they search. -/
def Meets (m : HdmapImpl K) (c : Math K) (s : Marks) : Call K → Prop
  | .findLaneseg x y count _ => (m.findLanesegRejects x y count).isSome
  | .getNeareastPoints src _ _ distance => (m.getNeareastPointsRejects src).isSome ∨
      Unhindered m.lanebdyKdtree ⟨src.x, src.y⟩ m.outOfRange (m.newAndFar distance)
        m.lanesegs.length s.bdy
  | .findLanesegV1 src hdg => m.lanesegRejects src ∨
      Unhindered m.lanebdyKdtree ⟨src.x, src.y⟩ (m.stopsAt c (mathHeading c hdg))
        (m.lacksLane c (mathHeading c hdg)) m.lanesegs.length s.bdy
  | .getNeareastLaneseg src hdg _ => m.lanesegRejects src ∨
      Unhindered m.lanebdyKdtree ⟨src.x, src.y⟩ (m.stopsAt c (mathHeading c hdg))
        (m.lacksLane c (mathHeading c hdg)) m.lanesegs.length s.bdy

/-- A search loop from clear flags. -/
theorem rounds_outcome {m : HdmapImpl K} (hf : Decides f J stop bad) {n : ℕ} {s : σ} (hs : J s)
    (h : rounds tree q f null n m.clear.bdy [] s = some r) :
    (Unhindered tree q stop bad n m.clear.bdy → { m.clear with bdy := r.1 } = m.clear) ∧
      (¬ Unhindered tree q stop bad n m.clear.bdy → ¬ Marks.Clear { m.clear with bdy := r.1 }) := by
  have hiff := rounds_clear_iff hf hs (by simp [HdmapImpl.clear]) h
  constructor
  · intro hun
    rw [show r.1 = m.clear.bdy from funext (hiff.mpr hun)]
  · exact fun hun hclear => hun (hiff.mp hclear.2)

/-- **One call** from clear flags: when it meets the condition nothing has changed, and when it
does not a node stays marked. -/
theorem step_outcome {m : HdmapImpl K} {c : Math K} {call : Call K} {s : Marks} {r : Reply K}
    (h : step m c m.clear call = some (s, r)) :
    (Meets m c m.clear call → s = m.clear) ∧ (¬ Meets m c m.clear call → ¬ s.Clear) := by
  cases call with
  | findLaneseg x y count set =>
      obtain ⟨⟨s', ret, set'⟩, hcall, heq⟩ := map_eq_some_iff.mp h
      cases heq
      cases hrejects : m.findLanesegRejects x y count with
      | some ret' =>
          simp only [HdmapImpl.findLaneseg, hrejects] at hcall
          cases hcall
          simp [Meets, hrejects]
      | none =>
          obtain ⟨j, hj⟩ := m.findLaneseg_marks hrejects hcall
          refine ⟨fun hmeets => ?_, fun _ hclear => ?_⟩
          · simp [Meets, hrejects] at hmeets
          · rw [hclear.1 j] at hj
            cases hj
  | findLanesegV1 src hdg =>
      obtain ⟨p, hcall, heq⟩ := map_eq_some_iff.mp h
      cases heq
      simp only [HdmapImpl.findLanesegV1] at hcall
      split at hcall
      · next hrejects =>
          cases hcall
          simp [Meets, hrejects]
      · next hrejects =>
          obtain ⟨p', hrounds, rfl⟩ := map_eq_some_iff.mp hcall
          simpa [Meets, hrejects] using
            rounds_outcome ((m.lanesegV1Round_follows c).decides (mathHeading c hdg)) rfl hrounds
  | getNeareastPoints src hdg points distance =>
      obtain ⟨p, hcall, heq⟩ := map_eq_some_iff.mp h
      cases heq
      simp only [HdmapImpl.getNeareastPoints] at hcall
      split at hcall
      · next ret hrejects =>
          cases hcall
          simp [Meets, hrejects]
      · next hrejects =>
          obtain ⟨p', hrounds, rfl⟩ := map_eq_some_iff.mp hcall
          simpa [Meets, hrejects] using
            rounds_outcome (m.pointsRound_decides distance) trivial hrounds
  | getNeareastLaneseg src hdg lanesegs =>
      obtain ⟨p, hcall, heq⟩ := map_eq_some_iff.mp h
      cases heq
      simp only [HdmapImpl.getNeareastLaneseg] at hcall
      split at hcall
      · next hrejects =>
          cases hcall
          simp [Meets, hrejects]
      · next hrejects =>
          obtain ⟨p', hrounds, rfl⟩ := map_eq_some_iff.mp hcall
          simpa [Meets, hrejects] using
            rounds_outcome ((m.lanesegRound_follows c src).decides (mathHeading c hdg)) rfl hrounds

/-- The queries leave no trace: all flags are clear whenever a call has returned, and of two
identical calls one after the other the second answers as the first. -/
structure LeaveNoTrace (m : HdmapImpl K) (c : Math K) (cs : List (Call K)) : Prop where
  clear : ∀ pre, pre <+: cs → ∀ s rs, run (step m c) m.clear pre = some (s, rs) → s.Clear
  same : ∀ pre call, pre ++ [call, call] <+: cs → ∀ s rs r r',
    run (step m c) m.clear (pre ++ [call, call]) = some (s, rs ++ [r, r']) → r = r'

/-- **When queries leave no trace**: a sequence of calls does if and only if each call that
returns meets the condition. -/
theorem queries_leave_no_trace_iff (m : HdmapImpl K) (c : Math K) (cs : List (Call K)) :
    LeaveNoTrace m c cs ↔
      Guarded (step m c) (fun s call => (step m c s call).isSome → Meets m c s call)
        m.clear cs := by
  have hmeets : ∀ s call s' r, s = m.clear → step m c s call = some (s', r) →
      Meets m c s call → s' = m.clear := by
    rintro s call s' r rfl hstep hmeets
    exact (step_outcome hstep).1 hmeets
  have hiff : (∀ pre, pre <+: cs → ∀ s rs,
      run (step m c) m.clear pre = some (s, rs) → s.Clear) ↔
      Guarded (step m c) (fun s call => (step m c s call).isSome → Meets m c s call)
        m.clear cs := by
    refine run_iff_guarded (I := (· = m.clear)) ?_ hmeets ?_ rfl
    · rintro s rfl
      exact ⟨fun _ => rfl, fun _ => rfl⟩
    · rintro s call s' r rfl hstep hnot
      exact (step_outcome hstep).2 hnot
  refine ⟨fun h => hiff.mp h.clear, fun h => ⟨hiff.mpr h, ?_⟩⟩
  rintro pre call ⟨rest, rfl⟩ s rs r r' hrun
  obtain ⟨s₁, rs₁, rs₂, hrun₁, hrun₂, hrs⟩ := run_append hrun
  have hguard := h.append_left
  obtain rfl : s₁ = m.clear :=
    guarded_invariant (I := (· = m.clear)) (fun s call s' r hs hstep hP =>
      hmeets s call s' r hs hstep (hP (by simp [hstep]))) rfl hguard.append_left hrun₁
  have hfirst := hguard.append_right hrun₁
  -- both calls are made in the state in which all flags are clear
  obtain ⟨s₂, r₁, _, hstep, hrun₃, rfl⟩ := run_cons_eq_some_iff.mp hrun₂
  obtain rfl : s₂ = m.clear := hmeets m.clear call s₂ r₁ rfl hstep (hfirst.1 (by simp [hstep]))
  obtain ⟨s₃, r₂, _, hstep', hrun₄, rfl⟩ := run_cons_eq_some_iff.mp hrun₃
  cases hstep.symm.trans hstep'
  cases hrun₄
  obtain ⟨-, hreplies⟩ := List.append_inj' hrs rfl
  simp_all

/-- A map of one lane segment with one end point at the origin. -/
def oneLaneseg : HdmapImpl ℚ where
  header := some ⟨true, -10, 10, -10, 10⟩
  lanesegKdtree := .node .null ⟨0, ⟨0, 0⟩⟩ .x .null
  lanesegIndex _ := 0
  lanebdyKdtree := .null
  bdyPoint _ := ⟨⟨0, 0, 0⟩, 0, 0⟩
  lanesegs := [⟨none, none, none, none⟩]
  lanes := []
  startLeft _ := 0

/-- Any functions will do here. -/
def anyMath : Math ℚ := ⟨fun _ _ => 0, fun a _ => a, 3⟩

theorem findLaneseg_oneLaneseg (selected : ℕ → Bool) :
    oneLaneseg.findLaneseg ⟨selected, fun _ => false, fun _ => 0⟩ 0 0 1 [] =
      some (⟨update selected 0 true, fun _ => false, fun _ => 0⟩, 1,
        [(some 0, tmp selected ⟨0, 0⟩ ⟨0, ⟨0, 0⟩⟩)]) := by
  have hsearch : kdtree2dSearch selected ⟨0, 0⟩ oneLaneseg.lanesegKdtree =
      some ⟨some ⟨0, ⟨0, 0⟩⟩, tmp selected ⟨0, 0⟩ ⟨0, ⟨0, 0⟩⟩, update selected 0 true⟩ := by
    simp [kdtree2dSearch, oneLaneseg, descend, rewalk]
  have hrejects : oneLaneseg.findLanesegRejects 0 0 1 = none := by
    simp [HdmapImpl.findLanesegRejects, oneLaneseg, Header.excludes, Kdtree.Tree.isNull]
  have hlength : oneLaneseg.lanesegs.length = 1 := rfl
  have hleft : oneLaneseg.startLeft 0 = 0 := rfl
  have hindex : oneLaneseg.lanesegIndex 0 = 0 := rfl
  simp [HdmapImpl.findLaneseg, hrejects, hlength, hleft, HdmapImpl.searchLanesegs, hsearch, hindex,
    HdmapImpl.clearLanesegs]

/-- `find_laneseg` for the lane segment nearest to the origin leaves it marked: a second call
finds it infinitely far away. -/
theorem second_find_laneseg_differs :
    ¬ LeaveNoTrace oneLaneseg anyMath [.findLaneseg 0 0 1 [], .findLaneseg 0 0 1 []] := by
  intro h
  have hfirst : oneLaneseg.findLaneseg oneLaneseg.clear 0 0 1 [] = _ :=
    findLaneseg_oneLaneseg fun _ => false
  have hsecond := findLaneseg_oneLaneseg (update (fun _ => false) 0 true)
  have hsame := h.same [] (.findLaneseg 0 0 1 []) (List.prefix_refl _)
    ⟨update (update (fun _ => false) 0 true) 0 true, fun _ => false, fun _ => 0⟩ []
    (.findLaneseg 1 [(some 0, tmp (fun _ => false) ⟨0, 0⟩ ⟨0, ⟨0, 0⟩⟩)])
    (.findLaneseg 1 [(some 0, tmp (update (fun _ => false) 0 true) ⟨0, 0⟩ ⟨0, ⟨0, 0⟩⟩)])
    (by simp [run, step, hfirst, hsecond])
  simp [tmp] at hsame

end V2I.HdmapQuery
