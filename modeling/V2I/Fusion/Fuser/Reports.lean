import V2I.Fusion.Fuser.Sync
import V2I.Fusion.Fuser.Tracks

/-!
# V2I.Fusion.Fuser.Reports

The fusers of the service over whole runs: the vehicle states stay sound under every sequence
of frames, and every vehicle that leaves them is reported once.
-/

namespace V2I.Fusion

open Machine

open Std (ExtTreeMap)

variable {F M O : Type} [Double F] {K : Kinematics M O}

/-- The vehicles `seen` and the ids reported as `gone` while the vehicle states are `vs`. -/
structure Account (n : ℤ) (vs : States F M) (seen : ℤ → Prop) (gone : List ℤ) : Prop where
  alive : ∀ id ∈ vs, seen id
  issued : ∀ id, seen id → id ≤ n
  once : ∀ id, seen id → id ∉ vs → gone.count id = 1
  only : ∀ id ∈ gone, seen id ∧ id ∉ vs

variable {seen : ℤ → Prop} {gone : List ℤ} {vs : States F M}

omit [Double F] in
theorem Account.mono {n n' : ℤ} (h : Account n vs seen gone) (hn : n ≤ n') :
    Account n' vs seen gone :=
  ⟨h.alive, fun id hid => (h.issued id hid).trans hn, h.once, h.only⟩

omit [Double F] in
/-- The ids under which removed vehicles are reported are their keys. -/
theorem map_id_setFusion (hkey : ∀ (id : ℤ) (v : VehicleState F M), vs[id]? = some v → v.id = id) :
    (setFusion vs).map Target.id = vs.keys := by
  rw [setFusion, List.map_map, ← ExtTreeMap.map_fst_toList_eq_keys]
  refine List.map_congr_left fun e he => ?_
  exact hkey e.1 e.2 (ExtTreeMap.mem_toList_iff_getElem?_eq_some.mp he)

omit [Double F] in
theorem count_keys (vs : States F M) (id : ℤ) : vs.keys.count id = if id ∈ vs then 1 else 0 := by
  rw [vs.nodup_keys.count]
  simp only [ExtTreeMap.mem_keys]

omit [Double F] in
/-- **A processed frame keeps the account.** -/
theorem Turns.account {t : ℕ} {n n' : ℤ} {vs' removed : States F M}
    (h : Turns t n n' vs vs' removed) (ha : Account n vs seen gone) :
    Account n' vs' (fun id => seen id ∨ id ∈ vs')
      (gone ++ (setFusion removed).map Target.id) := by
  -- an id that is back was never handed out before
  have hback : ∀ id, seen id → id ∉ vs → id ∉ vs' := by
    intro id hid hgone hmem
    obtain ⟨v', hv'⟩ := Option.isSome_iff_exists.mp (ExtTreeMap.mem_iff_isSome_getElem?.mp hmem)
    obtain ⟨v, hv, -⟩ := h.continues id v' (ha.issued id hid) hv'
    refine hgone (ExtTreeMap.mem_iff_isSome_getElem?.mpr ?_)
    rw [hv]
    rfl
  rw [map_id_setFusion h.key]
  refine ⟨fun id hid => .inr hid, ?_, ?_, ?_⟩
  · rintro id (hid | hid)
    · exact (ha.issued id hid).trans h.ids
    · obtain ⟨v', hv'⟩ := Option.isSome_iff_exists.mp (ExtTreeMap.mem_iff_isSome_getElem?.mp hid)
      exact h.tracks.issued id v' hv'
  · intro id hid hgone
    have hseen := hid.resolve_right hgone
    rw [List.count_append, count_keys]
    by_cases hmem : id ∈ vs
    · have hzero : gone.count id = 0 :=
        List.count_eq_zero.mpr fun hin => (ha.only id hin).2 hmem
      rw [hzero, if_pos ((h.gone id).mpr ⟨hmem, hgone⟩)]
    · rw [ha.once id hseen hmem, if_neg fun hin => hmem ((h.gone id).mp hin).1]
  · intro id hid
    rcases List.mem_append.mp hid with hid | hid
    · obtain ⟨hseen, hgone⟩ := ha.only id hid
      exact ⟨.inl hseen, hback id hseen hgone⟩
    · obtain ⟨hmem, hgone⟩ := (h.gone id).mp (ExtTreeMap.mem_keys.mp hid)
      exact ⟨.inl (ha.alive id hmem), hgone⟩

/-! ## packages -/

/-- Between the frames of a package nothing waits to be reported. -/
structure Reported (n : ℤ) (s : Fuser F M O) (seen : ℤ → Prop) (gone : List ℤ) : Prop where
  tracks : s.Tracks n
  empty : s.removedVehicleStates = ∅
  account : Account n s.vehicleStates seen gone

/-- The vehicles that were there after a frame of the package. -/
def FusionServicePkg.Shows (pkg : FusionServicePkg F M) (id : ℤ) : Prop :=
  ∃ vs ∈ pkg.after, id ∈ vs

variable {duration : ℕ}

theorem fuseRadarInfo_reported {n₀ : ℤ} {acc acc' : Fuser F M O × ℤ × FusionServicePkg F M}
    {frame : RaysunFrame O} (h : fuseRadarInfo K duration acc frame = some acc')
    (hacc : n₀ ≤ acc.2.1 ∧ Reported acc.2.1 acc.1 (fun id => seen id ∨ acc.2.2.Shows id)
      (gone ++ acc.2.2.rmItem.map Target.id)) :
    n₀ ≤ acc'.2.1 ∧ Reported acc'.2.1 acc'.1 (fun id => seen id ∨ acc'.2.2.Shows id)
      (gone ++ acc'.2.2.rmItem.map Target.id) := by
  obtain ⟨⟨s', n'⟩, hframe, rfl⟩ := Option.map_eq_some_iff.mp h
  obtain ⟨hn, htracks, hempty, hcount⟩ := hacc
  have hshows : ∀ id, (seen id ∨ FusionServicePkg.Shows { acc.2.2 with
      rmItem := acc.2.2.rmItem ++ setFusion s'.removedVehicleStates
      after := acc.2.2.after ++ [s'.vehicleStates] } id) ↔
      (seen id ∨ acc.2.2.Shows id) ∨ id ∈ s'.vehicleStates := by
    intro id
    simp only [FusionServicePkg.Shows, List.mem_append, List.mem_singleton, or_and_right,
      exists_or, exists_eq_left, or_assoc]
  simp only [hshows, List.map_append, ← List.append_assoc]
  obtain ⟨-, htime, rfl, hvs, hremoved⟩ | ⟨-, hturns⟩ := processOneFrame_cases htracks hframe
  · -- a late frame reports what the frame before it left, which is nothing
    refine ⟨hn, ?_, rfl, ?_⟩
    · simpa only [Fuser.Tracks, htime, hvs] using htracks
    · have hnil : (setFusion s'.removedVehicleStates).map Target.id = [] := by
        rw [hremoved, hempty]
        rfl
      have hsame : ∀ id, ((seen id ∨ acc.2.2.Shows id) ∨ id ∈ acc.1.vehicleStates) ↔
          (seen id ∨ acc.2.2.Shows id) := fun id => or_iff_left_of_imp (hcount.alive id)
      simpa only [hnil, hvs, List.append_nil, hsame] using hcount
  · exact ⟨hn.trans hturns.ids, hturns.tracks, rfl, hturns.account hcount⟩

/-- **A package keeps the account**, and shows no vehicle that is gone. -/
theorem fuseFrame_reported {s s' : Fuser F M O} {n n' code : ℤ} {inpkg : JunctionFusionPackage O}
    {outpkg : FusionServicePkg F M}
    (h : fuseFrame K duration s n inpkg = some (s', n', outpkg, code)) (hs : Reported n s seen gone)
    : n ≤ n' ∧ Reported n' s' (fun id => seen id ∨ outpkg.Shows id)
        (gone ++ outpkg.rmItem.map Target.id) ∧
      ∀ tgt ∈ outpkg.fusPkg, tgt.id ∈ s'.vehicleStates := by
  have hstart : ∀ id, (seen id ∨ FusionServicePkg.Shows (F := F) (M := M) ⟨[], [], []⟩ id) ↔
      seen id := by
    intro id
    simp [FusionServicePkg.Shows]
  unfold fuseFrame at h
  split_ifs at h with hinfo htime
  · cases h
    simpa only [hstart, List.map_nil, List.append_nil, le_refl, List.not_mem_nil, false_imp_iff,
      imp_true_iff, and_true, true_and] using hs
  · cases h
    simpa only [hstart, List.map_nil, List.append_nil, le_refl, List.not_mem_nil, false_imp_iff,
      imp_true_iff, and_true, true_and] using hs
  · obtain ⟨acc', hfold, heq⟩ := Option.map_eq_some_iff.mp h
    cases heq
    obtain ⟨hn, hrep⟩ := foldlM_relates
      (R := fun acc acc' =>
        (n ≤ acc.2.1 ∧ Reported acc.2.1 acc.1 (fun id => seen id ∨ acc.2.2.Shows id)
          (gone ++ acc.2.2.rmItem.map Target.id)) →
        n ≤ acc'.2.1 ∧ Reported acc'.2.1 acc'.1 (fun id => seen id ∨ acc'.2.2.Shows id)
          (gone ++ acc'.2.2.rmItem.map Target.id))
      (fun _ h => h) (fun _ _ _ h h' hacc => h' (h hacc))
      (fun _ _ _ h => fuseRadarInfo_reported h) hfold
      (by simpa only [hstart, List.map_nil, List.append_nil, le_refl, true_and] using hs)
    refine ⟨hn, hrep, fun tgt htgt => ?_⟩
    have hkeys := List.mem_map_of_mem (f := Target.id) htgt
    rw [map_id_setFusion hrep.tracks.key] at hkeys
    exact ExtTreeMap.mem_keys.mp hkeys

/-! ## the service -/

/-- The vehicle states of all fusers are sound. -/
def Service.Tracks (s : Service F M O) : Prop := ∀ vid, (s.fusers vid).Tracks s.idValue

/-- No id is handed out twice between `s` and `s'`, and vehicles keep their claims. -/
def Service.Later (s s' : Service F M O) : Prop :=
  s.idValue ≤ s'.idValue ∧
    ∀ vid, Continues s.idValue (s.fusers vid).vehicleStates (s'.fusers vid).vehicleStates

omit [Double F] in
theorem Service.tracks_new : (Service.new F M O).Tracks := by
  intro vid
  refine ⟨?_, ?_, ?_, ?_⟩ <;> simp [Service.new, Fuser.new]

variable {s : Service F M O}

/-- **One frame of one junction.** -/
theorem onFrame_tracks {s' : Service F M O} {call : String × RaysunFrame O} {u : Unit}
    (h : onFrame K duration s call = some (s', u)) (hs : s.Tracks) : s'.Tracks ∧ s.Later s' := by
  obtain ⟨vid, frame⟩ := call
  obtain ⟨⟨f', n'⟩, hframe, heq⟩ := Option.map_eq_some_iff.mp h
  cases heq
  have hstep : s.idValue ≤ n' ∧ f'.Tracks n' ∧
      Continues s.idValue (s.fusers vid).vehicleStates f'.vehicleStates := by
    obtain ⟨-, htime, rfl, hvs, -⟩ | ⟨-, hturns⟩ := processOneFrame_cases (hs vid) hframe
    · rw [hvs, Fuser.Tracks, hvs, htime]
      exact ⟨le_rfl, hs vid, .refl _ _⟩
    · exact ⟨hturns.ids, hturns.tracks, hturns.continues⟩
  obtain ⟨hn, htracks, hcont⟩ := hstep
  refine ⟨fun vid' => ?_, hn, fun vid' => ?_⟩ <;> by_cases hvid : vid' = vid
  · subst hvid
    simpa using htracks
  · simpa [hvid, Fuser.Tracks] using (hs vid').mono hn
  · subst hvid
    simpa using hcont
  · simpa [hvid] using Continues.refl _ _

/-- The ids reported as removed in the packages of a junction. -/
def reported (vid : String) (log : List (String × FusionServicePkg F M)) : List ℤ :=
  (log.filter fun p => p.1 = vid).flatMap fun p => p.2.rmItem.map Target.id

/-- The vehicles that were there after a frame of the junction. -/
def Seen (vid : String) (log : List (String × FusionServicePkg F M)) (id : ℤ) : Prop :=
  ∃ pkg, (vid, pkg) ∈ log ∧ pkg.Shows id

/-- The account of every junction. -/
def Service.Reported (s : Service F M O) (log : List (String × FusionServicePkg F M)) : Prop :=
  (∀ vid, V2I.Fusion.Reported s.idValue (s.fusers vid) (Seen vid log) (reported vid log)) ∧
    ∀ vid pkg, log.getLast? = some (vid, pkg) →
      ∀ tgt ∈ pkg.fusPkg, tgt.id ∈ (s.fusers vid).vehicleStates

omit [Double F] in
theorem Service.reported_new : (Service.new F M O).Reported [] := by
  refine ⟨fun vid => ⟨Service.tracks_new vid, rfl, ?_⟩, by simp⟩
  refine ⟨?_, ?_, ?_, ?_⟩ <;> simp [Service.new, Fuser.new, Seen, reported]

omit [Double F] in
theorem seen_append (vid : String) (log : List (String × FusionServicePkg F M)) (vid' : String)
    (pkg : FusionServicePkg F M) :
    Seen vid (log ++ [(vid', pkg)]) = fun id => Seen vid log id ∨ (vid = vid' ∧ pkg.Shows id) := by
  funext id
  rw [eq_iff_iff]
  simp only [Seen, List.mem_append, List.mem_singleton, Prod.mk.injEq, or_and_right, exists_or]
  refine or_congr_right ⟨?_, ?_⟩
  · rintro ⟨_, ⟨rfl, rfl⟩, h⟩
    exact ⟨rfl, h⟩
  · rintro ⟨rfl, h⟩
    exact ⟨pkg, ⟨rfl, rfl⟩, h⟩

/-- **One package of one junction.** -/
theorem onRecv_reported {s' : Service F M O} {call : String × JunctionFusionPackage O}
    {reply : String × FusionServicePkg F M} {log : List (String × FusionServicePkg F M)}
    (h : onRecv K duration s call = some (s', reply)) (hs : s.Reported log) :
    s'.Reported (log ++ [reply]) := by
  obtain ⟨vid, inpkg⟩ := call
  obtain ⟨⟨f', n', outpkg, code⟩, hframe, heq⟩ := Option.map_eq_some_iff.mp h
  cases heq
  obtain ⟨hn, hrep, hshown⟩ := fuseFrame_reported hframe (hs.1 vid)
  refine ⟨fun vid' => ?_, fun vid' pkg hlast => ?_⟩
  · by_cases hvid : vid' = vid
    · subst hvid
      simpa [seen_append, reported] using hrep
    · have hrep' := hs.1 vid'
      have hseen : Seen vid' (log ++ [(vid, outpkg)]) = Seen vid' log := by
        simp [seen_append, hvid]
      have hsame : reported vid' (log ++ [(vid, outpkg)]) = reported vid' log := by
        simp [reported, Ne.symm hvid]
      rw [hseen, hsame]
      simpa [hvid] using
        (⟨hrep'.tracks.mono hn, hrep'.empty, hrep'.account.mono hn⟩ :
          V2I.Fusion.Reported n' (s.fusers vid') (Seen vid' log) (reported vid' log))
  · rw [List.getLast?_append_of_ne_nil _ (by simp), List.getLast?_singleton] at hlast
    cases hlast
    simpa using hshown

/-- A late frame has a result and changes no vehicle state. -/
theorem onFrame_late {vid : String} {frame : RaysunFrame O}
    (hlate : frame.timestamp ≤ (s.fusers vid).currentTime) :
    ∃ s', onFrame K duration s (vid, frame) = some (s', ()) ∧
      ∀ vid', (s'.fusers vid').vehicleStates = (s.fusers vid').vehicleStates := by
  simp only [onFrame, processOneFrame, if_pos hlate, Option.map_some]
  refine ⟨_, rfl, fun vid' => ?_⟩
  by_cases hvid : vid' = vid
  · subst hvid
    simp
  · simp [hvid]

/-- **Fusion keeps track of its vehicles.** In every state reached by any frames of any
junctions, a target of a device belongs to one vehicle, vehicles are filed under their ids and
stand at the time of their fuser; in all later states an id handed out before belongs to the
same vehicle with its claims; a late frame changes no vehicle, and only an exhausted id counter
leaves a frame without a result. Over any packages of any junctions, every vehicle that has
been there and is gone was reported as removed once and no other was, and the last package
shows none that was reported. -/
theorem fusers_track_vehicles (K : Kinematics M O) (duration : ℕ) :
    (∀ calls s us, run (onFrame K duration) (Service.new F M O) calls = some (s, us) →
      s.Tracks ∧
      (∀ calls' s' us', run (onFrame K duration) s calls' = some (s', us') →
        s'.Tracks ∧ s.Later s') ∧
      (∀ vid frame, frame.timestamp ≤ (s.fusers vid).currentTime →
        ∃ s', onFrame K duration s (vid, frame) = some (s', ()) ∧
          ∀ vid', (s'.fusers vid').vehicleStates = (s.fusers vid').vehicleStates) ∧
      ∀ vid frame, onFrame K duration s (vid, frame) = none →
        2 ^ 31 - 1 < s.idValue + observations
          (getSyncFrames K (pushBack duration (s.fusers vid).namedBuff frame) frame)) ∧
    ∀ calls s log, run (onRecv K duration) (Service.new F M O) calls = some (s, log) →
      ∀ vid id,
        (Seen vid log id → id ∉ (s.fusers vid).vehicleStates →
          (reported vid log).count id = 1) ∧
        (id ∈ reported vid log → Seen vid log id ∧ id ∉ (s.fusers vid).vehicleStates) ∧
        ∀ pkg, log.getLast? = some (vid, pkg) → id ∈ reported vid log →
          ∀ tgt ∈ pkg.fusPkg, tgt.id ≠ id := by
  constructor
  · intro calls s us hrun
    have hs : s.Tracks := (run_invariant (I := Service.Tracks) (Q := fun _ => True)
      (fun s c s' r h hs => ⟨(onFrame_tracks h hs).1, trivial⟩) hrun Service.tracks_new).1
    refine ⟨hs, fun calls' s' us' hrun' => ?_, fun vid frame => onFrame_late, ?_⟩
    · refine (run_invariant (I := fun t => t.Tracks ∧ s.Later t) (Q := fun _ => True)
        (fun t c t' r h ht => ⟨?_, trivial⟩) hrun' ⟨hs, le_rfl, fun vid => .refl _ _⟩).1
      obtain ⟨ht', hlater⟩ := onFrame_tracks h ht.1
      exact ⟨ht', ht.2.1.trans hlater.1,
        fun vid => (ht.2.2 vid).trans ht.2.1 (hlater.2 vid)⟩
    · intro vid frame hnone
      exact processOneFrame_eq_none (hs vid) (Option.map_eq_none_iff.mp hnone)
  · intro calls s log hrun vid id
    have hrep : s.Reported log := by
      simpa using run_history (I := Service.Reported)
        (fun s c s' r log h hs => onRecv_reported h hs) hrun Service.reported_new
    have hcount := (hrep.1 vid).account
    refine ⟨hcount.once id, hcount.only id, fun pkg hlast hid tgt htgt heq => ?_⟩
    exact (hcount.only id hid).2 (heq ▸ hrep.2 vid pkg hlast tgt htgt)

/-- A vehicle is seen by one radar only, and then by none: it is reported as removed once. -/
example : ((run (onRecv still 1500) (Service.new ℚ Unit ℕ)
    [("j", ⟨[oneTarget 1 1000 7], 1000⟩), ("j", ⟨[oneTarget 2 2500 8], 2500⟩),
      ("j", ⟨[oneTarget 2 2600 9, oneTarget 2 2700 9], 2700⟩)]).map fun p =>
        (reported "j" p.2, p.2.map fun q => q.2.fusPkg.map (·.id))) =
      some ([0], [[0], [0, 1], [1]]) := by
  simp only [run, onRecv, fuseFrame, List.foldlM_cons, List.foldlM_nil, fuseRadarInfo,
    processOneFrame, pushBack_eq]
  decide +kernel

end V2I.Fusion
