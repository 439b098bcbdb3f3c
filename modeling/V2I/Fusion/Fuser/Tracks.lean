import V2I.Fusion.Fuser

/-!
# V2I.Fusion.Fuser.Tracks

What the fusers keep true of their vehicle states over every sequence of frames.
-/

namespace V2I.Fusion

open Std List Option

variable {F M O : Type} [Double F] {K : Kinematics M O}

/-- The vehicle states at time `t`, with ids up to `n`. -/
structure Tracks (t : ℕ) (n : ℤ) (vs : States F M) : Prop where
  key : ∀ (id : ℤ) (v : VehicleState F M), vs[id]? = some v → v.id = id
  issued : ∀ (id : ℤ) (v : VehicleState F M), vs[id]? = some v → id ≤ n
  time : ∀ (id : ℤ) (v : VehicleState F M), vs[id]? = some v → v.timestamp = t
  claims : ∀ (id id' dev : ℤ) (v v' : VehicleState F M) (target : ℕ), vs[id]? = some v →
    vs[id']? = some v' → v.obsDevTargetId[dev]? = some target →
    v'.obsDevTargetId[dev]? = some target → id = id'

/-- `v'` is what became of `v`. -/
def VehicleState.Keeps (v v' : VehicleState F M) : Prop :=
  v'.objClass = v.objClass ∧
    ∀ (dev : ℤ) (target : ℕ), v.obsDevTargetId[dev]? = some target →
      v'.obsDevTargetId[dev]? = some target

/-- Of the ids up to `n`, `vs'` has only those of `vs`, each with its class and claims. -/
def Continues (n : ℤ) (vs vs' : States F M) : Prop :=
  ∀ (id : ℤ) (v' : VehicleState F M), id ≤ n → vs'[id]? = some v' →
    ∃ v, vs[id]? = some v ∧ v.Keeps v'

omit [Double F] in
theorem VehicleState.Keeps.refl (v : VehicleState F M) : v.Keeps v := ⟨rfl, fun _ _ h => h⟩

variable {v : VehicleState F M}

omit [Double F] in
theorem VehicleState.Keeps.trans {v' v'' : VehicleState F M} (h : v.Keeps v') (h' : v'.Keeps v'') :
    v.Keeps v'' :=
  ⟨h'.1.trans h.1, fun dev target hv => h'.2 dev target (h.2 dev target hv)⟩

omit [Double F] in
theorem Continues.refl (n : ℤ) (vs : States F M) : Continues n vs vs :=
  fun _ v' _ hv => ⟨v', hv, .refl v'⟩

variable {vs : States F M} {n : ℤ} {n' : ℤ}

omit [Double F] in
theorem Continues.trans {vs' vs'' : States F M} (hn : n ≤ n') (h : Continues n vs vs')
    (h' : Continues n' vs' vs'') : Continues n vs vs'' := by
  intro id v'' hid hv''
  obtain ⟨v', hv', hkeep'⟩ := h' id v'' (hid.trans hn) hv''
  obtain ⟨v, hv, hkeep⟩ := h id v' hid hv'
  exact ⟨v, hv, hkeep.trans hkeep'⟩

variable {t : ℕ}

omit [Double F] in
theorem Tracks.mono (h : Tracks t n vs) (hn : n ≤ n') : Tracks t n' vs :=
  ⟨h.key, fun id v hv => (h.issued id v hv).trans hn, h.time, h.claims⟩

/-! ## one observation -/

variable {id : ℤ}

omit [Double F] in
/-- Writing a vehicle whose claims nobody else has. -/
theorem Tracks.insert {w : VehicleState F M} (h : Tracks t n vs) (hn : n ≤ n') (hid : id ≤ n')
    (hkey : w.id = id) (htime : w.timestamp = t)
    (hclaims : ∀ (id' dev : ℤ) (v : VehicleState F M) (target : ℕ), id' ≠ id →
      vs[id']? = some v → w.obsDevTargetId[dev]? = some target →
      v.obsDevTargetId[dev]? ≠ some target) : Tracks t n' (vs.insert id w) := by
  refine ⟨fun id' v hv => ?_, fun id' v hv => ?_, fun id' v hv => ?_, ?_⟩
  · obtain ⟨rfl, rfl⟩ | ⟨-, hv⟩ := getElem?_insert_eq_some.mp hv
    · exact hkey
    · exact h.key id' v hv
  · obtain ⟨rfl, rfl⟩ | ⟨-, hv⟩ := getElem?_insert_eq_some.mp hv
    · exact hid
    · exact (h.issued id' v hv).trans hn
  · obtain ⟨rfl, rfl⟩ | ⟨-, hv⟩ := getElem?_insert_eq_some.mp hv
    · exact htime
    · exact h.time id' v hv
  · intro id₁ id₂ dev v₁ v₂ target hv₁ hv₂ hc₁ hc₂
    obtain ⟨rfl, rfl⟩ | ⟨hne₁, hold₁⟩ := getElem?_insert_eq_some.mp hv₁ <;>
      obtain ⟨rfl, rfl⟩ | ⟨hne₂, hold₂⟩ := getElem?_insert_eq_some.mp hv₂
    · rfl
    · exact absurd hc₂ (hclaims id₂ dev v₂ target hne₂ hold₂ hc₁)
    · exact absurd hc₁ (hclaims id₁ dev v₁ target hne₁ hold₁ hc₂)
    · exact h.claims id₁ id₂ dev v₁ v₂ target hold₁ hold₂ hc₁ hc₂

variable {devid : ℤ}

omit [Double F] in
/-- The vehicle found to claim the target is filed under the id that is returned. -/
theorem isTracked_eq_some {target : ℕ} (h : Tracks t n vs)
    (hid : isTracked devid target vs = some id) :
    ∃ v, vs[id]? = some v ∧ v.obsDevTargetId[devid]? = some target := by
  obtain ⟨⟨k, v⟩, hfind, rfl⟩ := map_eq_some_iff.mp hid
  have hv := ExtTreeMap.mem_toList_iff_getElem?_eq_some.mp (mem_of_find?_eq_some hfind)
  refine ⟨v, ?_, by simpa using find?_some hfind⟩
  rw [h.key k v hv, hv]

omit [Double F] in
theorem isTracked_eq_none {target : ℕ} (h : isTracked devid target vs = none)
    (hv : vs[id]? = some v) : v.obsDevTargetId[devid]? ≠ some target := by
  rw [isTracked, map_eq_none_iff, find?_eq_none] at h
  simpa using h (id, v) (ExtTreeMap.mem_toList_iff_getElem?_eq_some.mpr hv)

omit [Double F] in
theorem isAssociated_eq_some {obs : VehicleObs O} (h : Tracks t n vs)
    (hid : isAssociated K devid obs vs = some id) :
    ∃ v, vs[id]? = some v ∧ v.obsDevTargetId[devid]? = none := by
  obtain ⟨⟨k, v⟩, hfind, rfl⟩ := map_eq_some_iff.mp hid
  have hv := ExtTreeMap.mem_toList_iff_getElem?_eq_some.mp (mem_of_find?_eq_some hfind)
  have hcond := find?_some hfind
  simp only [decide_eq_true_eq] at hcond
  refine ⟨v, ?_, hcond.2.1⟩
  rw [h.key k v hv, hv]

/-- What one observation does to the vehicle states: it writes one vehicle, an old one or one
with a new id. -/
structure Writes (t : ℕ) (acc acc' : States F M × ℤ) : Prop where
  ids : acc.2 ≤ acc'.2 ∧ acc'.2 ≤ acc.2 + 1
  write : ∃ (id : ℤ) (w : VehicleState F M), acc'.1 = acc.1.insert id w ∧ id ≤ acc'.2 ∧ w.id = id ∧ w.timestamp = t ∧
    (acc.2 < id ∨ ∃ v, acc.1[id]? = some v ∧ v.Keeps w) ∧
    ∀ (id' d : ℤ) (v : VehicleState F M) (tg : ℕ), id' ≠ id → acc.1[id']? = some v →
      w.obsDevTargetId[d]? = some tg → v.obsDevTargetId[d]? ≠ some tg

variable {acc : States F M × ℤ}

/-- **One observation**: it has a result while there are ids left, and writes one vehicle. -/
theorem updateVehicleState_writes (devid : ℤ) (obs : VehicleObs O) (h : Tracks t acc.2 acc.1) :
    (∀ acc', updateVehicleState K devid t acc obs = some acc' → Writes t acc acc') ∧
      (updateVehicleState K devid t acc obs = none → 2 ^ 31 - 1 ≤ acc.2) := by
  unfold updateVehicleState
  cases htracked : isTracked devid obs.id acc.1 with
  | some id =>
      obtain ⟨v, hv, hclaim⟩ := isTracked_eq_some h htracked
      simp only [hv, map_some, some.injEq, reduceCtorEq, false_imp_iff, and_true]
      rintro acc' rfl
      refine ⟨⟨le_rfl, by simp⟩, id, _, rfl, h.issued id v hv, h.key id v hv, rfl,
        .inr ⟨v, hv, .refl v⟩, ?_⟩
      intro id' d v' tg hne hv' hd hd'
      exact hne (h.claims id' id d v' v tg hv' hv hd' hd)
  | none =>
      cases hassoc : isAssociated K devid obs acc.1 with
      | some id =>
          obtain ⟨v, hv, hfree⟩ := isAssociated_eq_some h hassoc
          simp only [hv, map_some, some.injEq, reduceCtorEq, false_imp_iff, and_true]
          rintro acc' rfl
          have hget : ∀ d : ℤ, (v.obsDevTargetId.insert devid obs.id)[d]? =
              if devid = d then some obs.id else v.obsDevTargetId[d]? := by
            intro d
            rw [ExtTreeMap.getElem?_insert]
            simp only [Std.compare_eq_iff_eq]
          refine ⟨⟨le_rfl, by simp⟩, id, _, rfl, h.issued id v hv, h.key id v hv, rfl,
            .inr ⟨v, hv, rfl, ?_⟩, ?_⟩
          · intro d tg hd
            refine (hget d).trans ?_
            rw [if_neg, hd]
            rintro rfl
            exact absurd (hfree.symm.trans hd) nofun
          · intro id' d v' tg hne hv' hd hd'
            have hd := (hget d).symm.trans hd
            split_ifs at hd with heq
            · cases hd
              subst heq
              exact isTracked_eq_none htracked hv' hd'
            · exact hne (h.claims id' id d v' v tg hv' hv hd' hd)
      | none =>
          simp only [addVehicleState, getNewId]
          split_ifs with hleft
          · simp only [map_some, some.injEq, reduceCtorEq, false_imp_iff, and_true]
            rintro acc' rfl
            refine ⟨⟨?_, le_rfl⟩, acc.2 + 1, _, rfl, le_rfl, rfl, rfl, .inl ?_, ?_⟩
            · exact (lt_add_one _).le
            · exact lt_add_one _
            · intro id' d v' tg _ hv' hd hd'
              rw [ExtTreeMap.getElem?_insert] at hd
              simp only [Std.compare_eq_iff_eq, ExtTreeMap.getElem?_empty] at hd
              split_ifs at hd with heq
              cases hd
              subst heq
              exact isTracked_eq_none htracked hv' hd'
          · simpa using hleft

/-- What becomes of the vehicle states while nothing is removed. -/
structure Grows (t : ℕ) (acc acc' : States F M × ℤ) : Prop where
  tracks : Tracks t acc'.2 acc'.1
  ids : acc.2 ≤ acc'.2
  continues : Continues acc.2 acc.1 acc'.1
  stay : ∀ id : ℤ, id ∈ acc.1 → id ∈ acc'.1

omit [Double F] in
theorem Grows.trans {acc₁ acc₂ acc₃ : States F M × ℤ} (h : Grows t acc₁ acc₂)
    (h' : Grows t acc₂ acc₃) : Grows t acc₁ acc₃ :=
  ⟨h'.tracks, h.ids.trans h'.ids, h.continues.trans h.ids h'.continues,
    fun id hid => h'.stay id (h.stay id hid)⟩

variable {acc' : States F M × ℤ}

omit [Double F] in
theorem Writes.grows (h : Tracks t acc.2 acc.1) (hw : Writes t acc acc') : Grows t acc acc' := by
  obtain ⟨id, w, hacc, hid, hkey, htime, hold, hclaims⟩ := hw.write
  rw [show acc' = (acc.1.insert id w, acc'.2) from Prod.ext hacc rfl]
  refine ⟨h.insert hw.ids.1 hid hkey htime hclaims, hw.ids.1, ?_, ?_⟩
  · intro id' v' hid' hv'
    obtain ⟨rfl, rfl⟩ | ⟨-, hv'⟩ := getElem?_insert_eq_some.mp hv'
    · exact hold.resolve_left hid'.not_gt
    · exact ⟨v', hv', .refl v'⟩
  · intro id' hid'
    exact ExtTreeMap.mem_insert.mpr (.inr hid')

/-- **The observations of one frame.** -/
theorem foldlM_updateVehicleState_grows (devid : ℤ) (targets : List (VehicleObs O))
    (h : Tracks t acc.2 acc.1) :
    (∀ acc', targets.foldlM (updateVehicleState K devid t) acc = some acc' →
        Grows t acc acc' ∧ acc'.2 ≤ acc.2 + targets.length) ∧
      (targets.foldlM (updateVehicleState K devid t) acc = none →
        2 ^ 31 - 1 < acc.2 + targets.length) := by
  induction targets generalizing acc with
  | nil =>
      constructor
      · intro acc' heq
        cases heq
        exact ⟨⟨h, le_rfl, .refl _ _, fun _ hid => hid⟩, by simp⟩
      · nofun
  | cons obs targets ih =>
      obtain ⟨hsome, hnone⟩ := updateVehicleState_writes (K := K) devid obs h
      rw [foldlM_cons, length_cons]
      push_cast
      cases hstep : updateVehicleState K devid t acc obs with
      | none =>
          refine ⟨nofun, fun _ => ?_⟩
          have := hnone hstep
          omega
      | some acc₁ =>
          have hw := hsome acc₁ hstep
          have hg := hw.grows h
          obtain ⟨hsome₁, hnone₁⟩ := ih hg.tracks
          have hle := hw.ids.2
          constructor
          · intro acc' heq
            obtain ⟨hg', hle'⟩ := hsome₁ acc' heq
            exact ⟨hg.trans hg', by omega⟩
          · intro heq
            have := hnone₁ heq
            omega

/-- The number of observations in the frames. -/
def observations (frames : List (RaysunFrame O)) : ℕ := (frames.map (·.targets.length)).sum

/-- **The observations of all frames**, which stand at the same time. -/
theorem updateVehicleStates_grows {frames : List (RaysunFrame O)}
    (htime : ∀ frame ∈ frames, frame.timestamp = t) (h : Tracks t acc.2 acc.1) :
    (∀ acc', updateVehicleStates K acc frames = some acc' →
        Grows t acc acc' ∧ acc'.2 ≤ acc.2 + observations frames) ∧
      (updateVehicleStates K acc frames = none → 2 ^ 31 - 1 < acc.2 + observations frames) := by
  induction frames generalizing acc with
  | nil =>
      constructor
      · intro acc' heq
        cases heq
        exact ⟨⟨h, le_rfl, .refl _ _, fun _ hid => hid⟩, by simp [observations]⟩
      · nofun
  | cons frame frames ih =>
      obtain ⟨hframe, hframes⟩ := forall_mem_cons.mp htime
      obtain ⟨hsome, hnone⟩ :=
        foldlM_updateVehicleState_grows (K := K) frame.devid frame.targets h
      have hsum : observations (frame :: frames) = frame.targets.length + observations frames := by
        simp [observations]
      rw [hsum, updateVehicleStates, foldlM_cons, hframe]
      push_cast
      cases hstep : frame.targets.foldlM (updateVehicleState K frame.devid t) acc with
      | none =>
          refine ⟨nofun, fun _ => ?_⟩
          have := hnone hstep
          omega
      | some acc₁ =>
          obtain ⟨hg, hle⟩ := hsome acc₁ hstep
          obtain ⟨hsome₁, hnone₁⟩ := ih hframes hg.tracks
          constructor
          · intro acc' heq
            obtain ⟨hg', hle'⟩ := hsome₁ acc' heq
            exact ⟨hg.trans hg', by omega⟩
          · intro heq
            have := hnone₁ heq
            omega

/-! ## one frame -/

variable {frame : RaysunFrame O}

omit [Double F] in
/-- The synchronised frames stand at the time of the frame they are synchronised with. -/
theorem timestamp_of_mem_getSyncFrames {buff : ExtTreeMap ℤ (ExtTreeMap ℕ (RaysunFrame O))}
    {sync : RaysunFrame O} (h : sync ∈ getSyncFrames K buff frame) :
    sync.timestamp = frame.timestamp := by
  obtain ⟨dev, -, hdev⟩ := mem_filterMap.mp h
  split at hdev
  · cases hdev
  · next matched hmatched =>
      simp only at hdev
      split_ifs at hdev
      cases hdev
      simp [propagateFrame]

/-- What a processed frame does: the vehicles that are gone are those removed. -/
structure Turns (t : ℕ) (n n' : ℤ) (vs vs' removed : States F M) : Prop where
  tracks : Tracks t n' vs'
  ids : n ≤ n'
  continues : Continues n vs vs'
  gone : ∀ id : ℤ, id ∈ removed ↔ id ∈ vs ∧ id ∉ vs'
  key : ∀ (id : ℤ) (v : VehicleState F M), removed[id]? = some v → v.id = id

theorem propagateVehicles_kept {v' : VehicleState F M} :
    (propagateVehicles K vs t).1[id]? = some v' ↔
      ∃ v, vs[id]? = some v ∧ v.expired = false ∧ v' = v.propagate K t := by
  rw [propagateVehicles, ExtTreeMap.getElem?_filterMap', bind_eq_some_iff]
  refine exists_congr fun v => and_congr_right fun _ => ?_
  cases v.expired <;> simp [eq_comm]

theorem propagateVehicles_removed :
    (propagateVehicles K vs t).2[id]? = some v ↔ vs[id]? = some v ∧ v.expired = true := by
  rw [propagateVehicles, ExtTreeMap.getElem?_filter', filter_eq_some_iff]

theorem propagateVehicles_tracks {t' : ℕ} (h : Tracks t n vs) :
    Tracks t' n (propagateVehicles K vs t').1 ∧ Continues n vs (propagateVehicles K vs t').1 := by
  refine ⟨⟨?_, ?_, ?_, ?_⟩, ?_⟩
  · intro id v' hv'
    obtain ⟨v, hv, -, rfl⟩ := propagateVehicles_kept.mp hv'
    exact h.key id v hv
  · intro id v' hv'
    obtain ⟨v, hv, -⟩ := propagateVehicles_kept.mp hv'
    exact h.issued id v hv
  · intro id v' hv'
    obtain ⟨v, -, -, rfl⟩ := propagateVehicles_kept.mp hv'
    rfl
  · intro id₁ id₂ dev v₁ v₂ target hv₁ hv₂ hc₁ hc₂
    obtain ⟨w₁, hw₁, -, rfl⟩ := propagateVehicles_kept.mp hv₁
    obtain ⟨w₂, hw₂, -, rfl⟩ := propagateVehicles_kept.mp hv₂
    exact h.claims id₁ id₂ dev w₁ w₂ target hw₁ hw₂ hc₁ hc₂
  · intro id v' _ hv'
    obtain ⟨v, hv, -, rfl⟩ := propagateVehicles_kept.mp hv'
    exact ⟨v, hv, rfl, fun _ _ hc => hc⟩

/-- Propagation, then the observations. -/
theorem Grows.turns {t' : ℕ} (h : Tracks t n vs)
    (hg : Grows t' ((propagateVehicles K vs t').1, n) acc') :
    Turns t' n acc'.2 vs acc'.1 (propagateVehicles K vs t').2 := by
  refine ⟨hg.tracks, hg.ids, ?_, fun id => ?_, fun id v hv => ?_⟩
  · exact (propagateVehicles_tracks h).2.trans le_rfl hg.continues
  · simp only [ExtTreeMap.mem_iff_isSome_getElem?, isSome_iff_exists]
    constructor
    · rintro ⟨v, hv⟩
      obtain ⟨hv, hexp⟩ := propagateVehicles_removed.mp hv
      refine ⟨⟨v, hv⟩, ?_⟩
      rintro ⟨v', hv'⟩
      obtain ⟨w, hw, -⟩ := hg.continues id v' (h.issued id v hv) hv'
      obtain ⟨v₁, hv₁, hlive, -⟩ := propagateVehicles_kept.mp hw
      rw [hv] at hv₁
      cases hv₁
      exact absurd (hexp.symm.trans hlive) nofun
    · rintro ⟨⟨v, hv⟩, hgone⟩
      refine ⟨v, propagateVehicles_removed.mpr ⟨hv, ?_⟩⟩
      by_contra hlive
      have hkept : id ∈ (propagateVehicles K vs t').1 := by
        rw [ExtTreeMap.mem_iff_isSome_getElem?,
          propagateVehicles_kept.mpr ⟨v, hv, by simpa using hlive, rfl⟩]
        rfl
      have hstay := hg.stay id hkept
      rw [ExtTreeMap.mem_iff_isSome_getElem?, isSome_iff_exists] at hstay
      exact hgone hstay
  · exact h.key id v (propagateVehicles_removed.mp hv).1

/-- The vehicle states of a fuser, while the counter is at `n`. -/
def Fuser.Tracks (n : ℤ) (s : Fuser F M O) : Prop :=
  V2I.Fusion.Tracks s.currentTime n s.vehicleStates

/-- **One frame**: a late one goes to the cache only. -/
theorem processOneFrame_cases {duration : ℕ} {s s' : Fuser F M O} (hs : s.Tracks n)
    (h : processOneFrame K duration s n frame = some (s', n')) :
    (frame.timestamp ≤ s.currentTime ∧ s'.currentTime = s.currentTime ∧ n' = n ∧
        s'.vehicleStates = s.vehicleStates ∧ s'.removedVehicleStates = s.removedVehicleStates) ∨
      (s.currentTime < frame.timestamp ∧
        Turns s'.currentTime n n' s.vehicleStates s'.vehicleStates s'.removedVehicleStates) := by
  simp only [processOneFrame] at h
  split_ifs at h with hlate heq
  · cases h
    exact .inl ⟨hlate, rfl, rfl, rfl, rfl⟩
  · exact absurd heq.le hlate
  · obtain ⟨acc', hacc, heq⟩ := map_eq_some_iff.mp h
    cases heq
    refine .inr ⟨lt_of_not_ge hlate, ?_⟩
    have hg := (updateVehicleStates_grows (fun sync => timestamp_of_mem_getSyncFrames)
      (propagateVehicles_tracks hs).1).1 acc' hacc
    exact hg.1.turns hs

/-- A frame has a result unless the counter would pass `INT_MAX`. -/
theorem processOneFrame_eq_none {duration : ℕ} {s : Fuser F M O} (hs : s.Tracks n)
    (h : processOneFrame K duration s n frame = none) :
    2 ^ 31 - 1 < n + observations
      (getSyncFrames K (pushBack duration s.namedBuff frame) frame) := by
  simp only [processOneFrame] at h
  split_ifs at h with hlate heq
  exact (updateVehicleStates_grows (fun sync => timestamp_of_mem_getSyncFrames)
    (propagateVehicles_tracks hs).1).2 (map_eq_none_iff.mp h)

end V2I.Fusion
