import V2I.Lib.Machine
import V2I.Snapshot.Junction

/-!
# V2I.Snapshot.FusionImprover

`fusion_improver::improve_fusion_target_to_junction`: one frame of observed targets is
matched to the map. Vehicles live in three tables: on the roads (`_fn_planning`), in the
junction (`_fj_planning`), and out of sight (`_fm_planning`).

Besides the package it writes, a frame reports its `junction_process` runs in order.
-/

namespace V2I.Snapshot

open Std

/-- The members of `fusion_improver`, and the owner lists of its junction. -/
structure State (F L : Type) where
  fn : Table F L
  fj : Table F L
  fm : Table F L
  jinfo : Option (JuncionInfo F L)
  lights : ExtTreeMap ℤ ℤ
  owners : Owners

/-- A state right after construction. -/
def State.init (F L : Type) (jinfo : Option (JuncionInfo F L)) : State F L :=
  ⟨∅, ∅, ∅, jinfo, ∅, fun _ _ => []⟩

/-- A frame: the package's time and targets, the light states the light manager knows,
and what a new item holds before it is written to: one record for all new items of the frame. -/
structure Frame (F L : Type) where
  pkgtime : ℕ
  targets : List (Target F)
  lights : ExtTreeMap ℤ ℤ
  garbage : VehItem F L

/-- What a frame produces. -/
structure Output (F : Type) where
  targets : List (Target F)
  calls : List Call

variable {F L : Type} [Double F] [DecidableEq L] (P : Planner F L)

/-- `target_type_car` -/
def targetTypeCar : ℤ := 4

/-- `PLANNING_MAX_TIME` -/
def planningMaxTime : ℕ := 5000

/-- `set_target` on a new item. -/
def setTarget (garbage : VehItem F L) (src : Target F) (pkgtime : ℕ) : VehItem F L :=
  { garbage with
    vehItem := src, originPt := ⟨src.lon, src.lat⟩,
    pt := ⟨P.changeGpsToUtm ⟨src.lon, src.lat⟩, Double.ofRat 0⟩, hdg := src.hdg,
    speed := if Double.lt src.speed (Double.ofRat (10 / 10 ^ 15)) then Double.ofRat 0 else src.speed,
    badItem := false, timestamp := pkgtime, cinfo := none }

/-- `NormalizeRad` -/
def normalizeRad (angle : F) : F :=
  let a := Double.fmod angle (Double.ofRat 360)
  if Double.lt a (Double.ofRat 0) then a + Double.ofRat 360 else a

/-- `get_target`: the item with its position written back, and the target of the package. -/
def getTarget (v : VehItem F L) : VehItem F L × Target F :=
  let lla := P.changeUtmToGps v.pt.pt
  let item := { v.vehItem with lon := lla.x, lat := lla.y, hdg := normalizeRad v.hdg }
  ({ v with vehItem := item }, { item with speed := v.speed })

/-- The time since the first vehicle of a table was planned, 50 when it makes no sense. -/
def sinceFirst (pkgtime : ℕ) (first : VehItem F L) : ℕ :=
  let dtime := diff64 pkgtime first.timestamp % 2 ^ 32
  if 10000 < dtime ∨ dtime = 0 then 50 else dtime

/-- `get_process_time(pkgtime)`: the time step of the frame. -/
def getProcessTime (s : State F L) (pkgtime : ℕ) : ℕ :=
  match s.fn.toList.head?, s.fj.toList.head? with
  | some first, _ => sinceFirst pkgtime first.2
  | none, some first => sinceFirst pkgtime first.2
  | none, none => 50

/-- `reset_status()`. -/
def resetStatus (s : State F L) (lights : ExtTreeMap ℤ ℤ) : State F L :=
  { s with
    fn := s.fn.map fun _ v => { v with bused := false }
    fj := s.fj.map fun _ v => { v with bused := false }
    lights := if s.jinfo.isSome then lights else s.lights }

/-- The state in which the targets of the frame are looked at. -/
def prepare (s : State F L) (frame : Frame F L) : Option (State F L) :=
  let s := resetStatus s frame.lights
  (junctionIdmPlanning s.jinfo s.owners s.fj).map fun fj => { s with fj := fj }

/-- One target of the frame. -/
def observe (frame : Frame F L) (s : State F L) (tg : Target F) :
    Option (State F L × List Call) :=
  if tg.cls < targetTypeCar then some (s, [])
  else
    let vitem := setTarget P frame.garbage tg frame.pkgtime
    if tg.id ∈ s.fj then
      match junctionPlanningObserved P s.fj s.jinfo s.lights s.owners vitem with
      | none => none
      | some (fj, owners, calls) => some ({ s with fj := fj, owners := owners }, calls)
    else
      match s.fm[tg.id]? with
      | some v =>
          some ({ s with fm := s.fm.insert tg.id { v with vehItem := vitem.vehItem, timestamp := 0 } },
            [])
      | none => (normalPlanning P s.fn s.jinfo vitem).map fun fn => ({ s with fn := fn }, [])

/-- All targets of the frame. -/
def observeAll (frame : Frame F L) : State F L → List (Target F) → Option (State F L × List Call)
  | s, [] => some (s, [])
  | s, tg :: tgs =>
      match observe P frame s tg with
      | none => none
      | some (s, calls) => (observeAll frame s tgs).map fun r => (r.1, calls ++ r.2)

/-- `is_in_junction(item)`: at most half a metre before the end of an incoming lane. -/
def isInJunction (jinfo : Option (JuncionInfo F L)) (v : VehItem F L) : Bool :=
  match jinfo with
  | none => false
  | some info =>
      match (info.roadInfo.toList.flatMap fun rd => rd.2.laneInfo.toList).find? fun lane =>
          v.curLane = some lane.2.currLastLs with
      | none => false
      | some lane =>
          let len := P.getLength lane.2.currLastLs
          Double.lt len v.pt.s || Double.lt (len - v.pt.s) (Double.ofRat (5 / 10))

/-- The first loop of `check_set_status_result`: missing vehicles that were seen again or
are out of time are dropped. -/
def dropMissing (fm : Table F L) : Table F L :=
  fm.filter fun _ v => !(v.timestamp == 0 || decide (planningMaxTime < v.timestamp))

/-- The second loop: vehicles that left the junction go missing. -/
def junctionToMissing (s : State F L) : State F L :=
  s.fj.toList.foldl (fun s e =>
    if e.2.bused then s
    else { s with
      fm := s.fm.insert e.1 { e.2 with timestamp := 0, cinfo := none }
      owners := s.owners.del e.1
      fj := s.fj.erase e.1 }) s

/-- The third loop: vehicles at the end of an incoming lane enter the junction's table,
vehicles that were not seen are dropped. -/
def normalToJunction (s : State F L) : State F L :=
  s.fn.toList.foldl (fun s e =>
    if e.2.bused then
      if isInJunction P s.jinfo e.2 then { s with
        fj := s.fj.insert e.1 { e.2 with
          status := 0, a := Double.ofRat 0, countIncomm := false, countOutgoing := false,
          cinfo := none }
        fn := s.fn.erase e.1 }
      else s
    else { s with fn := s.fn.erase e.1 }) s

/-- `check_set_status_result()`. -/
def checkSetStatusResult (s : State F L) : State F L :=
  normalToJunction P (junctionToMissing { s with fm := dropMissing s.fm })

/-- The targets of a table that are not marked bad. -/
def tableTargets (t : Table F L) : List (Target F) :=
  (t.toList.filter fun e => !e.2.badItem).map fun e => (getTarget P e.2).2

/-- `get_target` writes positions back into the items. -/
def writeBack (t : Table F L) : Table F L :=
  t.map fun _ v => if v.badItem then v else (getTarget P v).1

/-- `set_targets(fpkg)` on the cleared package. -/
def setTargets (s : State F L) : State F L × List (Target F) :=
  ({ s with fn := writeBack P s.fn, fj := writeBack P s.fj, fm := writeBack P s.fm },
    tableTargets P s.fn ++ tableTargets P s.fj ++ tableTargets P s.fm)

/-- `improve_fusion_target_to_junction(item, pkg)`. -/
def improveFusionTargetToJunction (s : State F L) (frame : Frame F L) :
    Option (State F L × Output F) :=
  let dtime := getProcessTime s frame.pkgtime
  match prepare s frame with
  | none => none
  | some s =>
      match observeAll P frame s frame.targets with
      | none => none
      | some (s, calls) =>
          match junctionPlanning P s.fj s.jinfo s.lights s.owners dtime with
          | none => none
          | some ((owners, calls'), fj) =>
              match missingPlanning P s.fm dtime with
              | none => none
              | some fm =>
                  let s := checkSetStatusResult P { s with fj := fj, owners := owners, fm := fm }
                  let r := setTargets P s
                  some (r.1, ⟨r.2, calls ++ calls'⟩)

end V2I.Snapshot

/-!
## The tables

The three tables of the improver stay apart: along every run of frames a vehicle id is a
key of at most one of them, every stored vehicle carries its key as id, and the package of
a frame lists no id twice (`tables_stay_apart`).

Each stage of a frame is taken on its own. The planning stages rewrite records in place
and never change the id in them; only `check_set_status_result` moves records.
-/

namespace V2I.Snapshot

open Std

variable {F L : Type} [Double F] [DecidableEq L] {P : Planner F L}

/-! ## Planning keeps the id of a record -/

variable {veh vs' vs : VehItem F L}

omit [DecidableEq L] in
theorem normalProcess_id (hid : vs.vehItem.id = veh.vehItem.id)
    (h : normalProcess P vs veh bused = some (vs', r)) : vs'.vehItem.id = veh.vehItem.id := by
  unfold normalProcess at h
  grind

omit [DecidableEq L] in
theorem changeProcess_id (hid : vs.vehItem.id = veh.vehItem.id)
    (h : changeProcess P vs veh = some vs') : vs'.vehItem.id = veh.vehItem.id := by
  unfold changeProcess driftStep crossStep at h
  grind

omit [DecidableEq L] in
theorem refreshMidPoint_id (h : refreshMidPoint P vs veh ls = some vs') :
    vs'.vehItem.id = vs.vehItem.id := by
  unfold refreshMidPoint at h
  grind

omit [DecidableEq L] in
theorem map_changeProcess_id (h : (changeProcess P vs veh).map (·, n) = some (vs', r))
    (hid : vs.vehItem.id = veh.vehItem.id) : vs'.vehItem.id = veh.vehItem.id := by
  obtain ⟨w, hw, heq⟩ := Option.map_eq_some_iff.mp h
  cases heq
  exact changeProcess_id hid hw

omit [DecidableEq L] in
theorem map_refreshMidPoint_id (h : (refreshMidPoint P vs veh ls).map (·, n) = some (vs', r))
    (hid : vs.vehItem.id = veh.vehItem.id) : vs'.vehItem.id = veh.vehItem.id := by
  obtain ⟨w, hw, heq⟩ := Option.map_eq_some_iff.mp h
  cases heq
  exact (refreshMidPoint_id hw).trans hid

omit [DecidableEq L] in
theorem map_normalProcess_id
    (h : (normalProcess P vs veh bused).map (fun r => (r.1, n)) = some (vs', r))
    (hid : vs.vehItem.id = veh.vehItem.id) : vs'.vehItem.id = veh.vehItem.id := by
  obtain ⟨w, hw, heq⟩ := Option.map_eq_some_iff.mp h
  cases heq
  exact normalProcess_id hid hw

theorem replanChange_id (hid : vs.vehItem.id = veh.vehItem.id)
    (h : replanChange P vs veh ls info = some (vs', r)) : vs'.vehItem.id = veh.vehItem.id := by
  unfold replanChange at h
  extract_lets at h
  split at h
  · cases h; exact hid
  · extract_lets at h
    split_ifs at h
    · exact map_refreshMidPoint_id h hid
    · cases h; exact hid
    · exact map_refreshMidPoint_id h hid
    · cases h; exact hid
    · exact map_changeProcess_id h hid
    · exact map_refreshMidPoint_id h hid

theorem changeLaneInfo_id (hid : vs.vehItem.id = veh.vehItem.id)
    (h : changeLaneInfo P vs veh ls = some (vs', r)) : vs'.vehItem.id = veh.vehItem.id := by
  unfold changeLaneInfo at h
  split at h
  · cases h
  · split_ifs at h
    · exact map_changeProcess_id h hid
    · exact map_changeProcess_id h hid
    · exact map_changeProcess_id h hid
    · exact map_changeProcess_id h hid
    · split at h
      · cases h
      · exact replanChange_id hid h

theorem initLaneChangeInfo_id (hid : vs.vehItem.id = veh.vehItem.id)
    (h : initLaneChangeInfo P vs veh ls = some (vs', r)) : vs'.vehItem.id = veh.vehItem.id := by
  unfold initLaneChangeInfo at h
  extract_lets stay at h
  have hstay : ∀ b, stay b = some (vs', r) → vs'.vehItem.id = veh.vehItem.id :=
    fun _ hb => map_normalProcess_id hb hid
  obtain ⟨-, h⟩ | ⟨-, h⟩ := ite_eq_iff.mp h
  · cases h; exact hid
  iterate 5 (obtain ⟨-, h⟩ | ⟨-, h⟩ := ite_eq_iff.mp h; exact hstay _ h)
  split at h
  · cases h
  · dsimp only at h
    iterate 4 (obtain ⟨-, h⟩ | ⟨-, h⟩ := ite_eq_iff.mp h; exact hstay _ h)
    obtain ⟨-, h⟩ | ⟨-, h⟩ := ite_eq_iff.mp h
    · cases h; rfl
    · exact map_refreshMidPoint_id h hid

theorem updateStatus_id (h : updateStatus P vs veh ls = some vs')
    (hid : vs.vehItem.id = veh.vehItem.id) : vs'.vehItem.id = veh.vehItem.id := by
  unfold updateStatus at h
  split at h
  · split_ifs at h
    · obtain ⟨w, hw, rfl⟩ := Option.map_eq_some_iff.mp h
      exact normalProcess_id hid hw
    · exact changeProcess_id hid h
    · cases h; exact hid
  · split_ifs at h
    · split at h
      · cases h
      · next hinit =>
          have hid' := initLaneChangeInfo_id hid hinit
          split_ifs at h
          · exact changeProcess_id hid' h
          · cases h; exact hid'
    · split at h
      · cases h
      · split_ifs at h
        · exact changeProcess_id hid h
        · exact changeProcess_id hid h
        · split at h
          · cases h
          · next hchange =>
              have hid' := changeLaneInfo_id hid hchange
              split_ifs at h
              · cases h; exact hid'
              · exact changeProcess_id hid' h
    · cases h; exact hid

/-! ## The junction keeps the target of a record -/

variable {v' v : VehItem F L}

omit [Double F] [DecidableEq L] in
theorem countVehicle_vehItem (h : countVehicle P v info n = some v') : v'.vehItem = v.vehItem := by
  unfold countVehicle updateIncommingVehicle updateOutgoingVehicle at h
  grind

omit [DecidableEq L] in
theorem driftAcross_vehItem (v : VehItem F L) (dtime : F) :
    (driftAcross v dtime).vehItem = v.vehItem := by
  unfold driftAcross
  grind

omit [DecidableEq L] in
theorem statusProcess_vehItem (h : statusProcess P v info len t = some v') :
    v'.vehItem = v.vehItem := by
  unfold statusProcess at h
  split at h
  · cases h
  · extract_lets at h
    split at h
    · cases h
    · next hcount =>
        cases h
        rw [driftAcross_vehItem]
        have hv := countVehicle_vehItem hcount
        exact hv

omit [DecidableEq L] in
theorem getVehcleDistance_vehItem (v : VehItem F L) (dtime : ℕ) :
    (getVehcleDistance v dtime).2.vehItem = v.vehItem := by
  unfold getVehcleDistance
  grind

omit [DecidableEq L] in
theorem junctionChangeLane_vehItem (h : junctionChangeLane P v lane len self = some v') :
    v'.vehItem = v.vehItem := by
  unfold junctionChangeLane at h
  grind

omit [DecidableEq L] in
theorem enterJunction_vehItem
    (h : enterJunction P info o v road key lane len dtime self = some (v', o')) :
    v'.vehItem = v.vehItem := by
  unfold enterJunction at h
  split at h
  · cases h
  · next hchange =>
      obtain ⟨w, hw, heq⟩ := Option.map_eq_some_iff.mp h
      cases heq
      rw [statusProcess_vehItem hw, getVehcleDistance_vehItem, junctionChangeLane_vehItem hchange]

omit [DecidableEq L] in
theorem approachStopLine_vehItem {standing : VehItem F L}
    (h : approachStopLine P info v s dtime standing = some v') (hs : standing.vehItem = v.vehItem) :
    v'.vehItem = v.vehItem := by
  unfold approachStopLine at h
  split at h
  · exact statusProcess_vehItem h
  · cases h; exact hs

omit [DecidableEq L] in
theorem incommingProcess_vehItem
    (h : incommingProcess P info lights o v dtime real found = some (v', o')) :
    v'.vehItem = v.vehItem := by
  unfold incommingProcess at h
  extract_lets at h
  split at h
  · cases h
  · extract_lets _ w at h
    have hw : w.vehItem = v.vehItem := by grind
    rw [← hw]
    split_ifs at h
    · obtain ⟨x, hx, heq⟩ := Option.map_eq_some_iff.mp h
      cases heq
      exact statusProcess_vehItem hx
    · exact enterJunction_vehItem h
    · obtain ⟨x, hx, heq⟩ := Option.map_eq_some_iff.mp h
      cases heq
      have hv := approachStopLine_vehItem hx rfl
      exact hv
    · split at h
      · cases h
      · exact enterJunction_vehItem h
      · obtain ⟨x, hx, heq⟩ := Option.map_eq_some_iff.mp h
        cases heq
        exact approachStopLine_vehItem hx rfl

omit [DecidableEq L] in
/-- Inside the junction only the flag is changed after `status_process`. -/
theorem insideProcess_eq_some (h : insideProcess P info o v dtime = some (v', o')) :
    ∃ w, statusProcess P (getVehcleDistance v dtime).2 info (getVehcleDistance v dtime).1
      (Double.ofInt dtime) = some w ∧ (v' = w ∨ v' = { w with bused := false }) ∧ o' = o := by
  unfold insideProcess at h
  extract_lets d at h
  cases hst : statusProcess P d.2 info d.1 (Double.ofInt dtime) with
  | none => rw [hst] at h; cases h
  | some w =>
      simp only [hst] at h
      exact ⟨w, rfl, by grind⟩

omit [DecidableEq L] in
theorem insideProcess_vehItem (h : insideProcess P info o v dtime = some (v', o')) :
    v'.vehItem = v.vehItem := by
  obtain ⟨w, hst, rfl | rfl, -⟩ := insideProcess_eq_some h <;>
    exact (statusProcess_vehItem hst).trans (getVehcleDistance_vehItem v dtime)

theorem junctionProcess_vehItem (h : junctionProcess P info lights o v dtime real = some (v', o')) :
    v'.vehItem = v.vehItem := by
  unfold junctionProcess at h
  split at h
  · split at h
    · cases h; rfl
    · exact incommingProcess_vehItem h
  · exact insideProcess_vehItem h

/-! ## Tables -/

/-- Every record carries its key as id. -/
def Own (t : Table F L) : Prop :=
  ∀ (k : ℕ) (v : VehItem F L), t[k]? = some v → v.vehItem.id = k

/-- Two tables have no key in common. -/
def Apart (t u : Table F L) : Prop := ∀ k, k ∈ t → k ∉ u

/-- What a planning stage makes of a table: no new key, and every record keeps its id. -/
structure Within (t' t : Table F L) : Prop where
  own : Own t'
  keys : ∀ k, k ∈ t' → k ∈ t

/-- **The invariant** of the improver. -/
structure TablesOk (s : State F L) : Prop where
  fn : Own s.fn
  fj : Own s.fj
  fm : Own s.fm
  fnfj : Apart s.fn s.fj
  fnfm : Apart s.fn s.fm
  fjfm : Apart s.fj s.fm

variable {t : Table F L}

omit [Double F] [DecidableEq L] in
theorem Within.refl (h : Own t) : Within t t := ⟨h, fun _ hk => hk⟩

variable {t' : Table F L}

omit [Double F] [DecidableEq L] in
theorem Within.trans {t'' : Table F L} (h : Within t'' t') (h' : Within t' t) : Within t'' t :=
  ⟨h.own, fun k hk => h'.keys k (h.keys k hk)⟩

variable {s s' : State F L}

omit [Double F] [DecidableEq L] in
theorem TablesOk.within (hs : TablesOk s) (hn : Within s'.fn s.fn) (hj : Within s'.fj s.fj)
    (hm : Within s'.fm s.fm) : TablesOk s' where
  fn := hn.own
  fj := hj.own
  fm := hm.own
  fnfj k hk hk' := hs.fnfj k (hn.keys k hk) (hj.keys k hk')
  fnfm k hk hk' := hs.fnfm k (hn.keys k hk) (hm.keys k hk')
  fjfm k hk hk' := hs.fjfm k (hj.keys k hk) (hm.keys k hk')

omit [Double F] [DecidableEq L] in
theorem Within.of_getElem? (h : ∀ k v', t'[k]? = some v' → k ∈ t ∧ v'.vehItem.id = k) :
    Within t' t where
  own k v hv := (h k v hv).2
  keys k hk := by
    obtain ⟨v, hv⟩ := Option.isSome_iff_exists.mp (ExtTreeMap.mem_iff_isSome_getElem?.mp hk)
    exact (h k v hv).1

omit [Double F] [DecidableEq L] in
theorem mem_of_getElem? (h : t[k]? = some v) : k ∈ t := by
  simp [ExtTreeMap.mem_iff_isSome_getElem?, h]

omit [Double F] [DecidableEq L] in
theorem Own.insert (h : Own t) (hv : v.vehItem.id = k) : Own (t.insert k v) := by
  intro k' v' h'
  rw [ExtTreeMap.getElem?_insert] at h'
  grind [Own]

omit [Double F] [DecidableEq L] in
theorem Own.erase (h : Own t) (k : ℕ) : Own (t.erase k) := by
  intro k' v' h'
  rw [ExtTreeMap.getElem?_erase] at h'
  grind [Own]

omit [Double F] [DecidableEq L] in
theorem Within.insert (h : Own t) (hk : k ∈ t) (hv : v.vehItem.id = k) :
    Within (t.insert k v) t where
  own := h.insert hv
  keys k' hk' := by
    rw [ExtTreeMap.mem_insert, Nat.compare_eq_eq] at hk'
    rcases hk' with rfl | hk'
    · exact hk
    · exact hk'

omit [Double F] [DecidableEq L] in
theorem Within.map (h : Own t) {f : ℕ → VehItem F L → VehItem F L}
    (hf : ∀ k v, (f k v).vehItem.id = v.vehItem.id) : Within (t.map f) t := by
  refine .of_getElem? fun k v' hv' => ?_
  rw [ExtTreeMap.getElem?_map] at hv'
  obtain ⟨v, hv, rfl⟩ := Option.map_eq_some_iff.mp hv'
  exact ⟨mem_of_getElem? hv, (hf k v).trans (h k v hv)⟩

omit [Double F] [DecidableEq L] in
theorem Within.filter (h : Own t) (f : ℕ → VehItem F L → Bool) : Within (t.filter f) t := by
  refine .of_getElem? fun k v hv => ?_
  rw [ExtTreeMap.getElem?_filter'] at hv
  have hv := (Option.filter_eq_some_iff.mp hv).1
  exact ⟨mem_of_getElem? hv, h k v hv⟩

/-! ## The stages of a frame -/

/-- The records differ in their accelerations only. -/
def Accelerated (t t' : Table F L) : Prop :=
  ∀ k : ℕ, ∃ a, t'[k]? = t[k]?.map fun v => { v with a := a }

omit [DecidableEq L] in
theorem Accelerated.refl (t : Table F L) : Accelerated t t := by
  intro k
  cases hk : t[k]? with
  | none => exact ⟨Double.ofRat 0, rfl⟩
  | some v => exact ⟨v.a, rfl⟩

omit [Double F] [DecidableEq L] in
theorem Accelerated.trans {t'' : Table F L} (h : Accelerated t t') (h' : Accelerated t' t'') :
    Accelerated t t'' := by
  intro k
  obtain ⟨a, ha⟩ := h k
  obtain ⟨b, hb⟩ := h' k
  refine ⟨b, ?_⟩
  rw [hb, ha, Option.map_map]
  rfl

omit [DecidableEq L] in
theorem Accelerated.insert (hk : t[k]? = some v) (a : F) :
    Accelerated t (t.insert k { v with a := a }) := by
  intro k'
  by_cases heq : k = k'
  · subst heq
    exact ⟨a, by rw [ExtTreeMap.getElem?_insert_self, hk]; rfl⟩
  · rw [ExtTreeMap.getElem?_insert, if_neg fun h => heq (Nat.compare_eq_eq.mp h)]
    exact Accelerated.refl t k'

omit [Double F] [DecidableEq L] in
theorem Accelerated.within (h : Accelerated t t') (hown : Own t) : Within t' t := by
  refine .of_getElem? fun k v' hv' => ?_
  obtain ⟨a, ha⟩ := h k
  rw [hv'] at ha
  obtain ⟨v, hv, rfl⟩ := Option.map_eq_some_iff.mp ha.symm
  exact ⟨mem_of_getElem? hv, hown k v hv⟩

variable {vehs' vehs : Table F L}

omit [DecidableEq L] in
theorem junctionIdmProcess_accelerated (h : junctionIdmProcess vehs prev ids = some vehs') :
    Accelerated vehs vehs' := by
  induction ids generalizing vehs prev with
  | nil =>
      cases h
      exact .refl _
  | cons id ids ih =>
      unfold junctionIdmProcess at h
      split at h
      · cases h
      · next item hitem => exact (Accelerated.insert hitem _).trans (ih h)

omit [DecidableEq L] in
theorem junctionIdmPlanning_accelerated (h : junctionIdmPlanning info o vehs = some vehs') :
    Accelerated vehs vehs' := by
  unfold junctionIdmPlanning at h
  split at h
  · cases h
    exact .refl _
  · refine foldlM_relates Accelerated.refl (fun _ _ _ => Accelerated.trans) (fun t rd t' hrd => ?_) h
    exact foldlM_relates Accelerated.refl (fun _ _ _ => Accelerated.trans)
      (fun u lane u' hlane => junctionIdmProcess_accelerated hlane) hrd

omit [DecidableEq L] in
theorem prepare_tablesOk (hs : TablesOk s) (h : prepare s frame = some s') : TablesOk s' := by
  obtain ⟨fj, hfj, rfl⟩ := Option.map_eq_some_iff.mp h
  have hj : Within (resetStatus s frame.lights).fj s.fj := .map hs.fj fun _ _ => rfl
  have hj' := (junctionIdmPlanning_accelerated hfj).within hj.own
  exact hs.within (.map hs.fn fun _ _ => rfl) (hj'.trans hj) (.refl hs.fm)

/-- What the observed pass does: one run of `junction_process` on the record. -/
theorem junctionPlanningObserved_eq_some
    (h : junctionPlanningObserved P vehs info lights o veh = some (vehs', o', calls)) :
    ∃ v v', vehs[veh.vehItem.id]? = some v ∧
      junctionProcess P info lights o (observed v veh) (observedTime veh.timestamp v.timestamp) true =
        some (v', o') ∧
      vehs' = vehs.insert veh.vehItem.id v' ∧
      calls = [(veh.vehItem.id, observedTime veh.timestamp v.timestamp)] := by
  unfold junctionPlanningObserved at h
  cases hv : vehs[veh.vehItem.id]? with
  | none => simp only [hv] at h; cases h
  | some v =>
      simp only [hv] at h
      split at h
      · cases h
      · next w o₁ hw =>
          cases h
          exact ⟨v, w, rfl, hw, rfl, rfl⟩

theorem junctionPlanningObserved_within (hown : Own vehs)
    (h : junctionPlanningObserved P vehs info lights o veh = some (vehs', o', calls)) :
    Within vehs' vehs := by
  obtain ⟨v, v', hv, hproc, rfl, -⟩ := junctionPlanningObserved_eq_some h
  refine .insert hown (mem_of_getElem? hv) ?_
  rw [junctionProcess_vehItem hproc]
  rfl

/-- A vehicle that is on the roads already is updated, any other may be added. -/
theorem normalPlanning_spec {fn fn' : Table F L} (hown : Own fn)
    (h : normalPlanning P fn info veh = some fn') :
    Own fn' ∧ ∀ k, k ∈ fn' → k ∈ fn ∨ k = veh.vehItem.id := by
  have hins : ∀ v : VehItem F L, v.vehItem.id = veh.vehItem.id →
      Own (fn.insert veh.vehItem.id v) ∧
        ∀ k, k ∈ fn.insert veh.vehItem.id v → k ∈ fn ∨ k = veh.vehItem.id := by
    intro v hv
    refine ⟨hown.insert hv, fun k hk => ?_⟩
    rw [ExtTreeMap.mem_insert, Nat.compare_eq_eq] at hk
    exact hk.symm.imp id Eq.symm
  unfold normalPlanning at h
  cases hst : fn[veh.vehItem.id]? with
  | none =>
      simp only [hst] at h
      split at h
      · cases h
        exact ⟨hown, fun _ hk => .inl hk⟩
      · obtain ⟨-, h⟩ | ⟨-, h⟩ := ite_eq_iff.mp h
        · cases h
          exact ⟨hown, fun _ hk => .inl hk⟩
        · cases h
          exact hins _ rfl
  | some st =>
      have hid : st.vehItem.id = veh.vehItem.id := hown _ _ hst
      simp only [hst] at h
      obtain ⟨-, h⟩ | ⟨-, h⟩ := ite_eq_iff.mp h
      · cases h
        exact hins _ rfl
      split at h
      · obtain ⟨v, hv, rfl⟩ := Option.map_eq_some_iff.mp h
        have hv' := updateStatus_id hv hid
        exact hins v hv'
      obtain ⟨-, h⟩ | ⟨-, h⟩ := ite_eq_iff.mp h
      · obtain ⟨-, h⟩ | ⟨-, h⟩ := ite_eq_iff.mp h
        · cases h
          exact hins _ rfl
        · cases h
          exact hins _ rfl
      · obtain ⟨v, hv, rfl⟩ := Option.map_eq_some_iff.mp h
        have hv' := updateStatus_id hv hid
        exact hins v hv'

theorem observe_tablesOk (hs : TablesOk s) (h : observe P frame s tg = some (s', calls)) :
    TablesOk s' := by
  unfold observe at h
  split_ifs at h with hcls hfj
  · cases h
    exact hs
  · extract_lets vitem at h
    split at h
    · cases h
    · next hplan =>
        cases h
        exact hs.within (.refl hs.fn) (junctionPlanningObserved_within hs.fj hplan) (.refl hs.fm)
  · extract_lets vitem at h
    split at h
    · next v hv =>
        cases h
        exact hs.within (.refl hs.fn) (.refl hs.fj) (.insert hs.fm (mem_of_getElem? hv) rfl)
    · next hfm =>
        obtain ⟨fn, hfn, heq⟩ := Option.map_eq_some_iff.mp h
        cases heq
        obtain ⟨hown, hkeys⟩ := normalPlanning_spec hs.fn hfn
        have hnot : tg.id ∉ s.fm := by simp [ExtTreeMap.mem_iff_isSome_getElem?, hfm]
        refine ⟨hown, hs.fj, hs.fm, fun k hk => ?_, fun k hk => ?_, hs.fjfm⟩
        · rcases hkeys k hk with hk | rfl
          · exact hs.fnfj k hk
          · exact hfj
        · rcases hkeys k hk with hk | rfl
          · exact hs.fnfm k hk
          · exact hnot

theorem observeAll_cons_eq_some (h : observeAll P frame s (tg :: tgs) = some (s', calls)) :
    ∃ s₁ calls₁ calls₂, observe P frame s tg = some (s₁, calls₁) ∧
      observeAll P frame s₁ tgs = some (s', calls₂) ∧ calls = calls₁ ++ calls₂ := by
  unfold observeAll at h
  split at h
  · cases h
  · next hobs =>
      obtain ⟨⟨s₂, calls₂⟩, hrest, heq⟩ := Option.map_eq_some_iff.mp h
      cases heq
      exact ⟨_, _, _, hobs, hrest, rfl⟩

theorem observeAll_tablesOk (hs : TablesOk s) (h : observeAll P frame s tgs = some (s', calls)) :
    TablesOk s' := by
  induction tgs generalizing s calls with
  | nil =>
      cases h
      exact hs
  | cons tg tgs ih =>
      obtain ⟨s₁, calls₁, calls₂, hobs, hrest, rfl⟩ := observeAll_cons_eq_some h
      exact ih (observe_tablesOk hs hobs) hrest

omit [Double F] [DecidableEq L] in
/-- A loop over a table whose steps keep the id of the record they are at. -/
theorem visitM_within {σ : Type} {f : σ → ℕ → VehItem F L → Option (σ × Option (VehItem F L))}
    (hf : ∀ s k v s' v', f s k v = some (s', some v') → v'.vehItem.id = v.vehItem.id) {s s' : σ}
    (hown : Own t) (h : visitM f s t = some (s', t')) : Within t' t := by
  refine .of_getElem? fun k v' hv' => ?_
  obtain ⟨v, s₀, s₁, hk, hfv⟩ := exists_step_of_visitM h hv'
  exact ⟨mem_of_getElem? hk, (hf _ _ _ _ _ hfv).trans (hown k v hk)⟩

theorem junctionPlanning_within (hown : Own vehs)
    (h : junctionPlanning P vehs info lights o dtime = some (r, vehs')) : Within vehs' vehs := by
  refine visitM_within (fun s k v s' v' hv => ?_) hown h
  split_ifs at hv
  · cases hv
    rfl
  · extract_lets at hv
    split at hv
    · cases hv
    · next hproc =>
        cases hv
        rw [junctionProcess_vehItem hproc]

omit [DecidableEq L] in
theorem missingStep_vehItem (h : missingStep P v dtime = some (some v')) :
    v'.vehItem = v.vehItem := by
  unfold missingStep at h
  grind

omit [DecidableEq L] in
theorem missingPlanning_within (hown : Own vehs) (h : missingPlanning P vehs dtime = some vehs') :
    Within vehs' vehs := by
  obtain ⟨⟨u, t⟩, hvisit, rfl⟩ := Option.map_eq_some_iff.mp h
  refine visitM_within (fun s k v s' v' hv => ?_) hown hvisit
  obtain ⟨w, hw, heq⟩ := Option.map_eq_some_iff.mp hv
  cases heq
  rw [missingStep_vehItem hw]

/-! ## Moving records -/

omit [Double F] [DecidableEq L] in
theorem junctionToMissing_tablesOk (hs : TablesOk s) : TablesOk (junctionToMissing s) := by
  refine foldl_toList_invariant (Q := fun s e => s.fj[e.1]? = some e.2) ?_ ?_ s.fj hs
    fun e he => ExtTreeMap.mem_toList_iff_getElem?_eq_some.mp he
  · intro s e hs he
    split_ifs
    · exact hs
    · have hmem := mem_of_getElem? he
      have hid := hs.fj _ _ he
      refine ⟨hs.fn, hs.fj.erase _, hs.fm.insert hid, ?_, ?_, ?_⟩
      · intro k hk hk'
        exact hs.fnfj k hk (ExtTreeMap.mem_erase.mp hk').2
      · intro k hk hk'
        rw [ExtTreeMap.mem_insert, Nat.compare_eq_eq] at hk'
        rcases hk' with rfl | hk'
        · exact hs.fnfj _ hk hmem
        · exact hs.fnfm k hk hk'
      · intro k hk hk'
        rw [ExtTreeMap.mem_erase, Ne, Nat.compare_eq_eq] at hk
        rw [ExtTreeMap.mem_insert, Nat.compare_eq_eq] at hk'
        rcases hk' with rfl | hk'
        · exact hk.1 rfl
        · exact hs.fjfm k hk.2 hk'
  · intro s e e' hne he'
    split_ifs
    · exact he'
    · rw [ExtTreeMap.getElem?_erase]
      simp [Ne.symm hne, he']

theorem normalToJunction_tablesOk (hs : TablesOk s) : TablesOk (normalToJunction P s) := by
  refine foldl_toList_invariant (Q := fun s e => s.fn[e.1]? = some e.2) ?_ ?_ s.fn hs
    fun e he => ExtTreeMap.mem_toList_iff_getElem?_eq_some.mp he
  · intro s e hs he
    have hmem := mem_of_getElem? he
    have hid := hs.fn _ _ he
    have hfn : ∀ k, k ∈ s.fn.erase e.1 → k ≠ e.1 ∧ k ∈ s.fn := by
      intro k hk
      rw [ExtTreeMap.mem_erase, Ne, Nat.compare_eq_eq] at hk
      exact ⟨Ne.symm hk.1, hk.2⟩
    split_ifs
    · refine ⟨hs.fn.erase _, hs.fj.insert hid, hs.fm, ?_, ?_, ?_⟩
      · intro k hk hk'
        rw [ExtTreeMap.mem_insert, Nat.compare_eq_eq] at hk'
        rcases hk' with rfl | hk'
        · exact (hfn _ hk).1 rfl
        · exact hs.fnfj k (hfn k hk).2 hk'
      · intro k hk
        exact hs.fnfm k (hfn k hk).2
      · intro k hk
        rw [ExtTreeMap.mem_insert, Nat.compare_eq_eq] at hk
        rcases hk with rfl | hk
        · exact hs.fnfm _ hmem
        · exact hs.fjfm k hk
    · exact hs
    · exact ⟨hs.fn.erase _, hs.fj, hs.fm, fun k hk => hs.fnfj k (hfn k hk).2,
        fun k hk => hs.fnfm k (hfn k hk).2, hs.fjfm⟩
  · intro s e e' hne he'
    split_ifs
    · rw [ExtTreeMap.getElem?_erase]
      simp [Ne.symm hne, he']
    · exact he'
    · rw [ExtTreeMap.getElem?_erase]
      simp [Ne.symm hne, he']

theorem checkSetStatusResult_tablesOk (hs : TablesOk s) : TablesOk (checkSetStatusResult P s) :=
  normalToJunction_tablesOk (junctionToMissing_tablesOk
    (hs.within (.refl hs.fn) (.refl hs.fj) (.filter hs.fm _)))

/-! ## The package -/

omit [DecidableEq L] in
theorem writeBack_within (hown : Own t) : Within (writeBack P t) t := by
  refine .map hown fun k v => ?_
  split_ifs <;> rfl

omit [DecidableEq L] in
theorem setTargets_tablesOk (hs : TablesOk s) : TablesOk (setTargets P s).1 :=
  hs.within (writeBack_within hs.fn) (writeBack_within hs.fj) (writeBack_within hs.fm)

omit [DecidableEq L] in
/-- The targets of a table have its keys as ids, those of bad items left out. -/
theorem map_id_tableTargets (hown : Own t) :
    List.Sublist ((tableTargets P t).map (·.id)) t.keys := by
  have hid : ∀ e ∈ t.toList.filter (fun e => !e.2.badItem), (getTarget P e.2).2.id = e.1 := by
    intro e he
    exact hown e.1 e.2 (ExtTreeMap.mem_toList_iff_getElem?_eq_some.mp (List.mem_filter.mp he).1)
  have hmap : (tableTargets P t).map (·.id) =
      (t.toList.filter fun e => !e.2.badItem).map Prod.fst := by
    rw [tableTargets, List.map_map]
    exact List.map_congr_left hid
  rw [hmap, ← ExtTreeMap.map_fst_toList_eq_keys]
  exact List.filter_sublist.map _

omit [DecidableEq L] in
theorem setTargets_nodup (hs : TablesOk s) : ((setTargets P s).2.map (·.id)).Nodup := by
  have hn := map_id_tableTargets (P := P) hs.fn
  have hj := map_id_tableTargets (P := P) hs.fj
  have hm := map_id_tableTargets (P := P) hs.fm
  have hkeys : (s.fn.keys ++ s.fj.keys ++ s.fm.keys).Nodup := by
    rw [List.nodup_append', List.nodup_append']
    simp only [ExtTreeMap.nodup_keys, List.disjoint_left, List.mem_append, ExtTreeMap.mem_keys,
      true_and]
    exact ⟨hs.fnfj, fun k hk => hk.elim (hs.fnfm k) (hs.fjfm k)⟩
  unfold setTargets
  simp only [List.map_append]
  exact ((hn.append hj).append hm).nodup hkeys

/-! ## Runs -/

/-- The stages of a frame. -/
theorem improveFusionTargetToJunction_eq_some {out : Output F}
    (h : improveFusionTargetToJunction P s frame = some (s', out)) :
    ∃ s₁ s₂ calls owners calls' fj fm, prepare s frame = some s₁ ∧
      observeAll P frame s₁ frame.targets = some (s₂, calls) ∧
      junctionPlanning P s₂.fj s₂.jinfo s₂.lights s₂.owners (getProcessTime s frame.pkgtime) =
        some ((owners, calls'), fj) ∧
      missingPlanning P s₂.fm (getProcessTime s frame.pkgtime) = some fm ∧
      s' = (setTargets P
        (checkSetStatusResult P { s₂ with fj := fj, owners := owners, fm := fm })).1 ∧
      out = ⟨(setTargets P
        (checkSetStatusResult P { s₂ with fj := fj, owners := owners, fm := fm })).2,
        calls ++ calls'⟩ := by
  unfold improveFusionTargetToJunction at h
  extract_lets dtime at h
  split at h
  · cases h
  · next s₁ hprep =>
      split at h
      · cases h
      · next s₂ calls hobs =>
          split at h
          · cases h
          · next owners calls' fj hfj =>
              split at h
              · cases h
              · next fm hfm =>
                  cases h
                  exact ⟨s₁, s₂, calls, owners, calls', fj, fm, hprep, hobs, hfj, hfm, rfl, rfl⟩

theorem improveFusionTargetToJunction_tablesOk {out : Output F}
    (h : improveFusionTargetToJunction P s frame = some (s', out)) (hs : TablesOk s) :
    TablesOk s' ∧ (out.targets.map (·.id)).Nodup := by
  obtain ⟨s₁, s₂, calls, owners, calls', fj, fm, hprep, hobs, hfj, hfm, rfl, rfl⟩ :=
    improveFusionTargetToJunction_eq_some h
  have h₂ := observeAll_tablesOk (prepare_tablesOk hs hprep) hobs
  have h₃ : TablesOk { s₂ with fj := fj, owners := owners, fm := fm } :=
    h₂.within (.refl h₂.fn) (junctionPlanning_within h₂.fj hfj) (missingPlanning_within h₂.fm hfm)
  have h₄ := checkSetStatusResult_tablesOk (P := P) h₃
  exact ⟨setTargets_tablesOk h₄, setTargets_nodup h₄⟩

omit [Double F] [DecidableEq L] in
theorem State.init_tablesOk (jinfo : Option (JuncionInfo F L)) :
    TablesOk (State.init F L jinfo) := by
  constructor <;> simp [State.init, Own, Apart]

/-- **The tables stay apart**: after any frames from a fresh improver, no id is a key of two
tables, every stored vehicle carries its key as id, and no package listed an id twice. -/
theorem tables_stay_apart (P : Planner F L) (jinfo : Option (JuncionInfo F L))
    (frames : List (Frame F L)) (s : State F L) (outs : List (Output F))
    (h : Machine.run (improveFusionTargetToJunction P) (State.init F L jinfo) frames =
      some (s, outs)) :
    (Apart s.fn s.fj ∧ Apart s.fn s.fm ∧ Apart s.fj s.fm) ∧
      (Own s.fn ∧ Own s.fj ∧ Own s.fm) ∧
      ∀ out ∈ outs, (out.targets.map (·.id)).Nodup := by
  obtain ⟨hs, houts⟩ := Machine.run_invariant
    (fun s frame s' out hstep hs => improveFusionTargetToJunction_tablesOk hstep hs) h
    (State.init_tablesOk jinfo)
  exact ⟨⟨hs.fnfj, hs.fnfm, hs.fjfm⟩, ⟨hs.fn, hs.fj, hs.fm⟩, houts⟩

/-! ## A crossing

A straight road to the east: lane 0 leads into the junction, lane 1 through it, lane 2 out. -/

/-- Where the lanes start. -/
def crossingStart : ℕ → ℚ
  | 0 => 0
  | 1 => 100
  | _ => 115

/-- The lane at a position. -/
def crossingLane (x : ℚ) : ℕ := if x < 100 then 0 else if x < 115 then 1 else 2

/-- A position on its lane. -/
def crossingPoint (x : ℚ) : SegmentPoint ℚ := ⟨⟨x, 0⟩, x - crossingStart (crossingLane x)⟩

def crossing : Planner ℚ ℕ where
  changeGpsToUtm p := p
  changeUtmToGps p := p
  findLaneseg p _ := ⟨some (crossingLane p.x), p, 90, crossingPoint p.x⟩
  getAdcAndPoint lane len pt _ _ _ :=
    let x := crossingStart lane + pt.s + len
    ⟨some (crossingLane x), crossingPoint x, 90, 3, [lane, crossingLane x]⟩
  isInLane lane _ p := lane = some (crossingLane p.x)
  isSameRoad a b := a = b
  getLane := id
  getRoad := id
  getLength lane := crossingStart (lane + 1) - crossingStart lane
  getJunctionid lane := if lane = 1 then 5 else 0

def crossingJunction : JuncionInfo ℚ ℕ where
  junctionId := 5
  roadInfo := ExtTreeMap.insert ∅ 0
    { laneInfo := ExtTreeMap.insert ∅ 1
        { laneId := 1, currLastLs := 0, nextLanes := ExtTreeMap.insert ∅ 0 ⟨-1, 1⟩ }
      s := 100 }
  countInfo := none

/-- Vehicle 7 is seen at a position, at 36 km/h. -/
def crossingFrame (pkgtime : ℕ) (x : ℚ) : Frame ℚ ℕ where
  pkgtime := pkgtime
  targets := [⟨7, targetTypeCar, x, 0, 90, 36⟩]
  lights := ∅
  garbage := ⟨⟨0, 0, 0, 0, 0, 0⟩, ⟨⟨0, 0⟩, 0⟩, ⟨0, 0⟩, 0, 0, 0, 0, 0, false, false, false, false, none,
    0, none⟩

/-- One after the other it comes to the stop line, enters the junction and leaves it. -/
def crossingFrames : List (Frame ℚ ℕ) :=
  [crossingFrame 1000 (998 / 10), crossingFrame 2000 (1098 / 10), crossingFrame 3000 (1198 / 10)]

theorem tables_stay_apart_crossing : ∃ s outs,
    Machine.run (improveFusionTargetToJunction crossing)
      (State.init ℚ ℕ (some crossingJunction)) crossingFrames = some (s, outs) ∧
    ((Apart s.fn s.fj ∧ Apart s.fn s.fm ∧ Apart s.fj s.fm) ∧
      (Own s.fn ∧ Own s.fj ∧ Own s.fm) ∧ ∀ out ∈ outs, (out.targets.map (·.id)).Nodup) := by
  have hrun : (Machine.run (improveFusionTargetToJunction crossing)
      (State.init ℚ ℕ (some crossingJunction)) crossingFrames).isSome = true := by
    decide +kernel
  obtain ⟨⟨s, outs⟩, h⟩ := Option.isSome_iff_exists.mp hrun
  exact ⟨s, outs, h, tables_stay_apart crossing (some crossingJunction) crossingFrames s outs h⟩

end V2I.Snapshot
