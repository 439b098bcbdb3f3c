import V2I.Snapshot.FusionImprover.JunctionPass

/-!
# V2I.Snapshot.FusionImprover.Owners

The lists of the vehicles inside the junction, one for each incoming lane. A run is told as
its `Passage`s: which vehicle entered through which lane, and which left the table of the
junction.
-/

namespace V2I.Snapshot

open Std List Option Double Machine

variable {F L : Type} [Double F] [DecidableEq L] {P : Planner F L}

/-! ## Passages -/

/-- What happens to the owner lists: `junction_change_lane`, or a vehicle leaves the table. -/
inductive Passage where
  | enter (road : ℕ) (lane : ℤ) (id : ℕ)
  | leave (id : ℕ)
  deriving DecidableEq

/-- The lane of a vehicle on an incoming lane: its own, or one beside it. -/
def incommingEntry (lights : ExtTreeMap ℤ ℤ) (v : VehItem F L) (dtime : ℕ) (real : Bool)
    (found : ℕ × IncommingRoad F L × ℤ × JuncLaneInfo L) : Option (ℕ × ℤ) :=
  let road := found.2.1
  let lane := found.2.2.2
  match lane.nextLanes[(0 : ℤ)]? with
  | none => none
  | some next =>
      let enableRun := lightEnabled lights next.lightId
      let speed := if enableRun && Double.lt v.speed (ofRat 5) && !real
        then ofRat 9 else v.speed
      let ts := normalSpeed speed * mstos (ofInt dtime) + v.pt.s
      if Double.lt ts road.s then none
      else if enableRun then some (found.1, found.2.2.1)
      else if Double.lt speed (ofRat 10) then none
      else
        match getNextEnableLaneseg road lights lane.laneId with
        | some (some lane') => some (found.1, lane'.1)
        | _ => none

/-- The road and the lane whose `junction_change_lane` is called in `junction_process`. -/
def entryLane (info : Option (JuncionInfo F L)) (lights : ExtTreeMap ℤ ℤ) (v : VehItem F L)
    (dtime : ℕ) (real : Bool) : Option (ℕ × ℤ) :=
  if v.status = 0 then (incommingLane info v.curLane).bind (incommingEntry lights v dtime real)
  else none

/-- The passage of one run of `junction_process`. -/
def entryOf (info : Option (JuncionInfo F L)) (lights : ExtTreeMap ℤ ℤ) (v : VehItem F L)
    (dtime : ℕ) (real : Bool) : List Passage :=
  match entryLane info lights v dtime real with
  | none => []
  | some lane => [.enter lane.1 lane.2 v.vehItem.id]

/-- The passages while the targets of a frame are looked at. -/
def observePassages (P : Planner F L) (frame : Frame F L) :
    State F L → List (Target F) → List Passage
  | _, [] => []
  | s, tg :: tgs =>
      let passages :=
        if tg.cls < targetTypeCar then []
        else
          match s.fj[tg.id]? with
          | none => []
          | some v =>
              entryOf s.jinfo s.lights (observed v (setTarget P frame.garbage tg frame.pkgtime))
                (observedTime frame.pkgtime v.timestamp) true
      match observe P frame s tg with
      | none => passages
      | some (s, _) => passages ++ observePassages P frame s tgs

/-- A record when `junction_planning` gets to it. -/
def unobserved (v : VehItem F L) (dtime : ℕ) : VehItem F L :=
  { v with bused := true, timestamp := (v.timestamp + dtime) % 2 ^ 64 }

/-- The passages of `junction_planning` over the vehicles that were not observed. -/
def planningPassages (info : Option (JuncionInfo F L)) (lights : ExtTreeMap ℤ ℤ)
    (vehs : List (ℕ × VehItem F L)) (dtime : ℕ) : List Passage :=
  vehs.flatMap fun e =>
    if e.2.bused then [] else entryOf info lights (unobserved e.2 dtime) dtime false

/-- The passages of the second loop of `check_set_status_result`. -/
def leavePassages (vehs : List (ℕ × VehItem F L)) : List Passage :=
  vehs.flatMap fun e => if e.2.bused then [] else [.leave e.1]

/-- The passages of a frame. -/
def framePassages (P : Planner F L) (s : State F L) (frame : Frame F L) : List Passage :=
  let dtime := getProcessTime s frame.pkgtime
  match prepare s frame with
  | none => []
  | some s =>
      observePassages P frame s frame.targets ++
        match observeAll P frame s frame.targets with
        | none => []
        | some (s, _) =>
            planningPassages s.jinfo s.lights s.fj.toList dtime ++
              match junctionPlanning P s.fj s.jinfo s.lights s.owners dtime with
              | none => []
              | some (_, fj) => leavePassages fj.toList

/-- The passages of a run. -/
def passages (P : Planner F L) : State F L → List (Frame F L) → List Passage
  | _, [] => []
  | s, frame :: frames =>
      framePassages P s frame ++
        match improveFusionTargetToJunction P s frame with
        | none => []
        | some (s, _) => passages P s frames

/-- The vehicles that entered through a lane and have not left since, in the order in which
they entered. -/
def present (road : ℕ) (lane : ℤ) : List Passage → List ℕ
  | [] => []
  | .leave _ :: rest => present road lane rest
  | .enter r l id :: rest =>
      if (r = road ∧ l = lane) ∧ .leave id ∉ rest then id :: present road lane rest
      else present road lane rest

/-- An entry joins the end of its lane. -/
theorem present_append_enter (road r : ℕ) (lane l : ℤ) (id : ℕ) (ps : List Passage) :
    present road lane (ps ++ [.enter r l id]) =
      present road lane ps ++ if r = road ∧ l = lane then [id] else [] := by
  induction ps with
  | nil => simp [present]
  | cons p ps ih =>
      cases p with
      | leave id' => exact ih
      | enter r' l' id' =>
          have hmem : Passage.leave id' ∈ ps ++ [.enter r l id] ↔ .leave id' ∈ ps := by simp
          simp only [cons_append, present, hmem, ih]
          split_ifs <;> rfl

/-- A vehicle that leaves is present nowhere. -/
theorem present_append_leave (road : ℕ) (lane : ℤ) (id : ℕ) (ps : List Passage) :
    present road lane (ps ++ [.leave id]) = (present road lane ps).filter (· ≠ id) := by
  induction ps with
  | nil => simp [present]
  | cons p ps ih =>
      cases p with
      | leave id' => exact ih
      | enter r' l' id' =>
          have hmem : Passage.leave id' ∈ ps ++ [.leave id] ↔ .leave id' ∈ ps ∨ id' = id := by
            simp
          simp only [cons_append, present, hmem, ih, not_or]
          by_cases hlane : (r' = road ∧ l' = lane) ∧ .leave id' ∉ ps
          · by_cases hid : id' = id
            · rw [if_neg fun h => h.2.2 hid, if_pos hlane, filter_cons_of_neg (by simpa using hid)]
            · rw [if_pos ⟨hlane.1, hlane.2, hid⟩, if_pos hlane,
                filter_cons_of_pos (by simpa using hid)]
          · rw [if_neg fun h => hlane ⟨h.1, h.2.1⟩, if_neg hlane]

/-! ## One run of `junction_process` -/

variable {v v' : VehItem F L}

omit [Double F] [DecidableEq L] in
theorem countVehicle_status (h : countVehicle P v info n = some v') : v'.status = v.status := by
  unfold countVehicle updateIncommingVehicle updateOutgoingVehicle at h
  grind

omit [DecidableEq L] in
theorem driftAcross_status (v : VehItem F L) (dtime : F) :
    (driftAcross v dtime).status = v.status := by
  unfold driftAcross
  grind

omit [DecidableEq L] in
theorem statusProcess_status (h : statusProcess P v info len t = some v') :
    v'.status = v.status := by
  unfold statusProcess at h
  split at h
  · cases h
  · extract_lets at h
    split at h
    · cases h
    · next hcount =>
        cases h
        rw [driftAcross_status]
        have hv := countVehicle_status hcount
        exact hv

omit [DecidableEq L] in
theorem getVehcleDistance_status (v : VehItem F L) (dtime : ℕ) :
    (getVehcleDistance v dtime).2.status = v.status := by
  unfold getVehcleDistance
  grind

omit [DecidableEq L] in
/-- The way into the junction: the vehicle is inside, at the end of the lane's list. -/
theorem enterJunction_enters
    (h : enterJunction P info o v road key lane len dtime self = some (v', o')) :
    v'.status = 1 ∧ o' = o.add road key v.vehItem.id := by
  unfold enterJunction at h
  split at h
  · cases h
  · next w hchange =>
      obtain ⟨x, hx, heq⟩ := map_eq_some_iff.mp h
      cases heq
      refine ⟨?_, rfl⟩
      rw [statusProcess_status hx, getVehcleDistance_status]
      unfold junctionChangeLane at hchange
      grind

omit [DecidableEq L] in
theorem approachStopLine_status {standing : VehItem F L}
    (h : (approachStopLine P info v s dtime standing).map (·, o) = some (v', o'))
    (hs : standing.status = v.status) : v'.status = v.status ∧ o' = o := by
  obtain ⟨w, hw, heq⟩ := map_eq_some_iff.mp h
  cases heq
  refine ⟨?_, rfl⟩
  unfold approachStopLine at hw
  split at hw
  · exact statusProcess_status hw
  · cases hw
    exact hs

/-- The owner lists after the call of `junction_change_lane`, if there was one. -/
def Owners.enter (o : Owners) (entry : Option (ℕ × ℤ)) (id : ℕ) : Owners :=
  match entry with
  | none => o
  | some lane => o.add lane.1 lane.2 id

omit [DecidableEq L] in
theorem incommingProcess_enters
    (h : incommingProcess P info lights o v dtime real found = some (v', o')) :
    o' = o.enter (incommingEntry lights v dtime real found) v.vehItem.id ∧
      v'.status = (incommingEntry lights v dtime real found).elim v.status fun _ => 1 := by
  simp only [incommingProcess] at h
  simp only [incommingEntry]
  cases hnext : found.2.2.2.nextLanes[(0 : ℤ)]? with
  | none => simp only [hnext] at h; cases h
  | some next =>
      simp only [hnext] at h ⊢
      have hspeed : (if (lightEnabled lights next.lightId && Double.lt v.speed (ofRat 5) && !real)
          then { v with speed := ofRat 9 } else v) =
          { v with speed := if (lightEnabled lights next.lightId &&
            Double.lt v.speed (ofRat 5) && !real) then ofRat 9 else v.speed } := by
        split_ifs <;> rfl
      simp only [hspeed] at h
      generalize (if (lightEnabled lights next.lightId && Double.lt v.speed (ofRat 5) && !real)
        then ofRat 9 else v.speed) = speed at h ⊢
      split_ifs at h ⊢ with hfar hrun hslow
      · obtain ⟨w, hw, heq⟩ := map_eq_some_iff.mp h
        cases heq
        have hst := statusProcess_status hw
        exact ⟨rfl, hst⟩
      · obtain ⟨hst, ho⟩ := enterJunction_enters h
        exact ⟨ho, hst⟩
      · obtain ⟨hst, ho⟩ := approachStopLine_status h rfl
        exact ⟨ho, hst⟩
      · split at h
        · cases h
        · next key lane' hside =>
            obtain ⟨hst, ho⟩ := enterJunction_enters h
            simp only [hside]
            exact ⟨ho, hst⟩
        · next hside =>
            obtain ⟨hst, ho⟩ := approachStopLine_status h rfl
            simp only [hside]
            exact ⟨ho, hst⟩

omit [DecidableEq L] in
theorem insideProcess_status (h : insideProcess P info o v dtime = some (v', o')) :
    v'.status = v.status ∧ o' = o := by
  obtain ⟨w, hst, hv | hv, rfl⟩ := insideProcess_eq_some h <;> rw [hv] <;>
    exact ⟨(statusProcess_status hst).trans (getVehcleDistance_status v dtime), rfl⟩

/-- **`junction_process`** puts the vehicle at the end of the list of the lane through which
it lets it in, and into no other list. -/
theorem junctionProcess_enters (h : junctionProcess P info lights o v dtime real = some (v', o')) :
    o' = o.enter (entryLane info lights v dtime real) v.vehItem.id ∧
      v'.status = (entryLane info lights v dtime real).elim v.status fun _ => 1 := by
  unfold junctionProcess at h
  unfold entryLane
  by_cases hstatus : v.status = 0
  · rw [if_pos hstatus] at h ⊢
    cases hfound : incommingLane info v.curLane with
    | none =>
        simp only [hfound] at h
        cases h
        exact ⟨rfl, rfl⟩
    | some found =>
        simp only [hfound] at h
        exact incommingProcess_enters h
  · rw [if_neg hstatus] at h ⊢
    obtain ⟨hst, ho⟩ := insideProcess_status h
    exact ⟨ho, hst⟩

/-! ## The lists and the table -/

/-- The lists of the junction, the passages so far, and the table. -/
structure OwnersOk (ps : List Passage) (o : Owners) (fj : Table F L) : Prop where
  own : Own fj
  lists : ∀ road lane, o road lane = present road lane ps
  nodup : ∀ road lane, (o road lane).Nodup
  apart : ∀ road lane road' lane' k, k ∈ o road lane → k ∈ o road' lane' →
    road = road' ∧ lane = lane'
  inside : ∀ (k : ℕ) (v : VehItem F L), fj[k]? = some v →
    v.status = 0 ∨ v.status = 1
  mem : ∀ k, (∃ road lane, k ∈ o road lane) ↔
    ∃ v : VehItem F L, fj[k]? = some v ∧ v.status = 1

variable {ps : List Passage} {fj : Table F L} {o : Owners}

omit [Double F] [DecidableEq L] in
/-- Records that change while their ids and their statuses stay. -/
theorem OwnersOk.congr {fj' : Table F L} (h : OwnersOk ps o fj) (hown : Own fj')
    (hsame : ∀ k : ℕ, fj'[k]?.map (·.status) = fj[k]?.map (·.status)) : OwnersOk ps o fj' := by
  refine ⟨hown, h.lists, h.nodup, h.apart, fun k v' hv' => ?_, fun k => ?_⟩
  · have hk := hsame k
    rw [hv', map_some] at hk
    obtain ⟨v, hv, hst⟩ := map_eq_some_iff.mp hk.symm
    exact hst ▸ h.inside k v hv
  · rw [h.mem k]
    have hst : ∀ t : Table F L, (∃ v : VehItem F L, t[k]? = some v ∧ v.status = 1) ↔
        t[k]?.map (·.status) = some 1 := by
      intro t
      rw [map_eq_some_iff]
    rw [hst, hst, hsame]

variable {k : ℕ}

omit [Double F] [DecidableEq L] in
/-- A vehicle that is not inside is in no list. -/
theorem OwnersOk.not_mem (h : OwnersOk ps o fj)
    (hk : ∀ v : VehItem F L, fj[k]? = some v → v.status ≠ 1) (road : ℕ) (lane : ℤ) :
    k ∉ o road lane := by
  intro hmem
  obtain ⟨v, hv, hst⟩ := (h.mem k).mp ⟨road, lane, hmem⟩
  exact hk v hv hst

omit [Double F] [DecidableEq L] in
/-- A vehicle arrives in the table in front of the stop line. -/
theorem OwnersOk.arrive (h : OwnersOk ps o fj) (hk : k ∉ fj) (hid : v.vehItem.id = k)
    (hst : v.status = 0) : OwnersOk ps o (fj.insert k v) := by
  refine ⟨h.own.insert hid, h.lists, h.nodup, h.apart, fun k' w hw => ?_, fun k' => ?_⟩
  · obtain ⟨rfl, rfl⟩ | ⟨-, hw⟩ := getElem?_insert_eq_some.mp hw
    · exact .inl hst
    · exact h.inside k' w hw
  · rw [h.mem k']
    refine exists_congr fun w => and_congr_left fun hw1 => ?_
    rw [getElem?_insert_eq_some]
    constructor
    · intro hw
      refine .inr ⟨?_, hw⟩
      rintro rfl
      exact hk (mem_of_getElem? hw)
    · rintro (⟨rfl, rfl⟩ | ⟨-, hw⟩)
      · omega
      · exact hw

omit [Double F] [DecidableEq L] in
/-- A vehicle leaves the table. -/
theorem OwnersOk.leave (h : OwnersOk ps o fj) (k : ℕ) :
    OwnersOk (ps ++ [.leave k]) (o.del k) (fj.erase k) := by
  have hdel : ∀ road lane, o.del k road lane = (o road lane).filter (· ≠ k) := by
    intro road lane
    rw [Owners.del, (h.nodup road lane).erase_eq_filter]
    refine filter_congr fun x _ => ?_
    by_cases hx : x = k <;> simp [hx]
  have hmem : ∀ road lane k', k' ∈ o.del k road lane ↔ k' ∈ o road lane ∧ k' ≠ k := by
    intro road lane k'
    rw [hdel, mem_filter, decide_eq_true_iff]
  have hget : ∀ (k' : ℕ) (v : VehItem F L), (fj.erase k)[k']? = some v ↔
      fj[k']? = some v ∧ k' ≠ k := by
    intro k' v
    rw [ExtTreeMap.getElem?_erase]
    by_cases heq : k = k'
    · simp [heq]
    · simp [heq, Ne.symm heq]
  refine ⟨h.own.erase k, fun road lane => ?_, fun road lane => ?_, ?_, fun k' v hv => ?_,
    fun k' => ?_⟩
  · rw [hdel, h.lists, present_append_leave]
  · rw [hdel]
    exact (h.nodup road lane).filter _
  · intro road lane road' lane' k' hk hk'
    exact h.apart road lane road' lane' k' ((hmem _ _ _).mp hk).1 ((hmem _ _ _).mp hk').1
  · exact h.inside k' v ((hget k' v).mp hv).1
  · simp only [hmem, hget, exists_and_right, h.mem k']
    constructor
    · rintro ⟨⟨v, hv, hst⟩, hne⟩
      exact ⟨v, ⟨hv, hne⟩, hst⟩
    · rintro ⟨v, ⟨hv, hne⟩, hst⟩
      exact ⟨⟨v, hv, hst⟩, hne⟩

omit [Double F] [DecidableEq L] in
/-- A vehicle that is not inside enters through a lane. -/
theorem OwnersOk.enter (h : OwnersOk ps o fj) (hv : fj[k]? = some v) (hst : v.status = 0)
    (hid : v'.vehItem.id = k) (hst' : v'.status = 1) (r : ℕ) (l : ℤ) :
    OwnersOk (ps ++ [.enter r l k]) (o.add r l k) (fj.insert k v') := by
  have hout : ∀ road lane, k ∉ o road lane := by
    refine h.not_mem fun w hw => ?_
    cases hv.symm.trans hw
    omega
  have hmem : ∀ road lane k', k' ∈ o.add r l k road lane ↔
      k' ∈ o road lane ∨ ((road = r ∧ lane = l) ∧ k' = k) := by
    intro road lane k'
    unfold Owners.add
    split_ifs with hlane <;> simp [hlane]
  refine ⟨h.own.insert hid, fun road lane => ?_, fun road lane => ?_, ?_, fun k' w hw => ?_,
    fun k' => ?_⟩
  · rw [present_append_enter, ← h.lists]
    unfold Owners.add
    by_cases hlane : road = r ∧ lane = l
    · rw [if_pos hlane, if_pos ⟨hlane.1.symm, hlane.2.symm⟩]
    · rw [if_neg hlane, if_neg fun h => hlane ⟨h.1.symm, h.2.symm⟩, append_nil]
  · unfold Owners.add
    split_ifs
    · exact (h.nodup road lane).append (nodup_singleton k)
        (disjoint_singleton.mpr (hout road lane))
    · exact h.nodup road lane
  · intro road lane road' lane' k' hk hk'
    rcases (hmem _ _ _).mp hk with hk | ⟨hlane, heq⟩ <;>
      rcases (hmem _ _ _).mp hk' with hk' | ⟨hlane', heq'⟩
    · exact h.apart road lane road' lane' k' hk hk'
    · exact absurd (heq' ▸ hk) (hout road lane)
    · exact absurd (heq ▸ hk') (hout road' lane')
    · exact ⟨hlane.1.trans hlane'.1.symm, hlane.2.trans hlane'.2.symm⟩
  · obtain ⟨rfl, rfl⟩ | ⟨-, hw⟩ := getElem?_insert_eq_some.mp hw
    · exact .inr hst'
    · exact h.inside k' w hw
  · by_cases hk : k' = k
    · subst hk
      refine ⟨fun _ => ⟨v', by simp, hst'⟩, fun _ => ⟨r, l, (hmem _ _ _).mpr (.inr ⟨⟨rfl, rfl⟩, rfl⟩)⟩⟩
    · simp only [hmem, hk, and_false, or_false, h.mem k', getElem?_insert_eq_some, false_and,
        ne_eq, not_false_eq_true, true_and, false_or]

/-- **One run of `junction_process`** on a record of the table. -/
theorem OwnersOk.process {o' : Owners} {w : VehItem F L} (h : OwnersOk ps o fj)
    (hv : fj[k]? = some v) (hst : w.status = v.status) (hid : w.vehItem.id = k)
    (hproc : junctionProcess P info lights o w dtime real = some (v', o')) :
    OwnersOk (ps ++ entryOf info lights w dtime real) o' (fj.insert k v') := by
  obtain ⟨rfl, hst'⟩ := junctionProcess_enters hproc
  have hid' : v'.vehItem.id = k := by rw [junctionProcess_vehItem hproc, hid]
  unfold entryOf
  cases hentry : entryLane info lights w dtime real with
  | none =>
      rw [hentry] at hst'
      rw [append_nil]
      refine h.congr (h.own.insert hid') fun k' => ?_
      by_cases hk : k = k'
      · subst hk
        rw [ExtTreeMap.getElem?_insert_self, hv]
        exact congrArg some (hst'.trans hst)
      · rw [ExtTreeMap.getElem?_insert, if_neg fun heq => hk (Nat.compare_eq_eq.mp heq)]
  | some lane =>
      rw [hentry] at hst'
      have hzero : w.status = 0 := by
        by_contra hne
        rw [entryLane, if_neg hne] at hentry
        cases hentry
      simp only [hid]
      exact h.enter hv (hst.symm.trans hzero) hid' hst' lane.1 lane.2

/-! ## One frame -/

/-- The lists of a state. -/
def State.OwnersOk (ps : List Passage) (s : State F L) : Prop :=
  V2I.Snapshot.OwnersOk ps s.owners s.fj

variable {s s' : State F L}

/-- One target. -/
theorem observe_ownersOk {tg : Target F} {calls : List Call} (hs : s.OwnersOk ps)
    (h : observe P frame s tg = some (s', calls)) :
    s'.OwnersOk (ps ++
      if tg.cls < targetTypeCar then []
      else
        match s.fj[tg.id]? with
        | none => []
        | some v =>
            entryOf s.jinfo s.lights (observed v (setTarget P frame.garbage tg frame.pkgtime))
              (observedTime frame.pkgtime v.timestamp) true) := by
  unfold observe at h
  by_cases hcls : tg.cls < targetTypeCar
  · rw [if_pos hcls] at h ⊢
    cases h
    rwa [append_nil]
  · rw [if_neg hcls] at h ⊢
    extract_lets vitem at h
    by_cases hfj : tg.id ∈ s.fj
    · rw [if_pos hfj] at h
      split at h
      · cases h
      · next hplan =>
          cases h
          obtain ⟨v, v', hv, hproc, rfl, -⟩ := junctionPlanningObserved_eq_some hplan
          have hv' : s.fj[tg.id]? = some v := hv
          rw [hv']
          exact OwnersOk.process hs hv rfl rfl hproc
    · rw [if_neg hfj] at h
      have hnone : s.fj[tg.id]? = none :=
        not_isSome_iff_eq_none.mp fun h => hfj (ExtTreeMap.mem_iff_isSome_getElem?.mpr h)
      rw [hnone, append_nil]
      split at h
      · cases h
        exact hs
      · obtain ⟨fn, hfn, heq⟩ := map_eq_some_iff.mp h
        cases heq
        exact hs

theorem observeAll_ownersOk {tgs : List (Target F)} {calls : List Call} (hs : s.OwnersOk ps)
    (h : observeAll P frame s tgs = some (s', calls)) :
    s'.OwnersOk (ps ++ observePassages P frame s tgs) := by
  induction tgs generalizing s calls ps with
  | nil =>
      cases h
      rwa [observePassages, append_nil]
  | cons tg tgs ih =>
      obtain ⟨s₁, calls₁, calls₂, hobs, hrest, rfl⟩ := observeAll_cons_eq_some h
      rw [observePassages, hobs]
      dsimp only
      rw [← append_assoc]
      exact ih (observe_ownersOk hs hobs) hrest

/-- The pass over the vehicles that were not observed: the records still to come are as they
were. -/
theorem foldlM_junctionPlanning_ownersOk {l : List (ℕ × VehItem F L)}
    (hl : l.Pairwise fun a b => a.1 ≠ b.1) {acc acc' : (Owners × List Call) × Table F L} {dtime : ℕ}
    (hacc : OwnersOk ps acc.1.1 acc.2) (hmem : ∀ e ∈ l, acc.2[e.1]? = some e.2)
    (h : l.foldlM (visitStep fun acc id v =>
      if v.bused then some (acc, some v)
      else
        match junctionProcess P info lights acc.1 (unobserved v dtime) dtime false with
        | none => none
        | some (v, o) => some ((o, acc.2 ++ [(id, dtime)]), some v)) acc = some acc') :
    OwnersOk (ps ++ planningPassages info lights l dtime) acc'.1.1 acc'.2 := by
  induction l generalizing acc ps with
  | nil =>
      cases h
      rwa [planningPassages, flatMap_nil, append_nil]
  | cons e l ih =>
      obtain ⟨hne, hl'⟩ := pairwise_cons.mp hl
      obtain ⟨he, hmem'⟩ := forall_mem_cons.mp hmem
      rw [foldlM_cons] at h
      obtain ⟨acc₁, hstep, h⟩ := bind_eq_some_iff.mp h
      obtain ⟨r, hf, hat, hother⟩ := visitStep_eq_some hstep
      have hmem₁ : ∀ e' ∈ l, acc₁.2[e'.1]? = some e'.2 := by
        intro e' he'
        rw [hother e'.1 (hne e' he').symm]
        exact hmem' e' he'
      rw [planningPassages, flatMap_cons, ← append_assoc]
      refine ih hl' ?_ hmem₁ h
      clear hf hat hother hmem₁
      by_cases hbused : e.2.bused = true
      · simp only [visitStep, hbused, if_true] at hstep ⊢
        cases hstep
        rw [append_nil]
        refine hacc.congr (hacc.own.insert (hacc.own _ _ he)) fun k => ?_
        by_cases hk : e.1 = k
        · rw [← hk, ExtTreeMap.getElem?_insert_self, he]
        · rw [ExtTreeMap.getElem?_insert, if_neg fun heq => hk (Nat.compare_eq_eq.mp heq)]
      · simp only [visitStep, hbused] at hstep ⊢
        cases hproc : junctionProcess P info lights acc.1.1 (unobserved e.2 dtime) dtime false with
        | none => rw [hproc] at hstep; cases hstep
        | some p =>
            rw [hproc] at hstep
            cases hstep
            have hid : e.2.vehItem.id = e.1 := hacc.own _ _ he
            exact hacc.process he rfl hid hproc

theorem junctionPlanning_ownersOk {vehs vehs' : Table F L} {r : Owners × List Call} {dtime : ℕ}
    (hacc : OwnersOk ps o vehs) (h : junctionPlanning P vehs info lights o dtime = some (r, vehs'))
    : OwnersOk (ps ++ planningPassages info lights vehs.toList dtime) r.1 vehs' :=
  foldlM_junctionPlanning_ownersOk (distinct_toList vehs) hacc
    (fun _ he => ExtTreeMap.mem_toList_iff_getElem?_eq_some.mp he) h

omit [Double F] [DecidableEq L] in
theorem junctionToMissing_ownersOk (hs : s.OwnersOk ps) :
    (junctionToMissing s).OwnersOk (ps ++ leavePassages s.fj.toList) := by
  unfold junctionToMissing
  generalize s.fj.toList = l
  induction l generalizing s ps with
  | nil => rwa [leavePassages, flatMap_nil, append_nil]
  | cons e l ih =>
      rw [leavePassages, flatMap_cons, ← append_assoc, foldl_cons]
      refine ih ?_
      split_ifs
      · rwa [append_nil]
      · exact OwnersOk.leave hs e.1

theorem normalToJunction_ownersOk (hs : s.OwnersOk ps) (htables : TablesOk s) :
    (normalToJunction P s).OwnersOk ps := by
  refine foldl_toList_invariant (I := State.OwnersOk ps)
    (Q := fun s e => e.1 ∉ s.fj ∧ e.2.vehItem.id = e.1) ?_ ?_ s.fn hs ?_
  · intro s e hs he
    split_ifs
    · exact OwnersOk.arrive hs he.1 he.2 rfl
    · exact hs
    · exact hs
  · intro s e e' hne he'
    split_ifs
    · refine ⟨?_, he'.2⟩
      rw [ExtTreeMap.mem_insert, Nat.compare_eq_eq, not_or]
      exact ⟨hne.symm, he'.1⟩
    · exact he'
    · exact he'
  · intro e he
    have hget := ExtTreeMap.mem_toList_iff_getElem?_eq_some.mp he
    exact ⟨htables.fnfj _ (mem_of_getElem? hget), htables.fn _ _ hget⟩

omit [Double F] [DecidableEq L] in
/-- Acceleration leaves statuses alone. -/
theorem OwnersOk.accelerated {fj' : Table F L} (h : OwnersOk ps o fj) (ha : Accelerated fj fj') :
    OwnersOk ps o fj' := by
  refine h.congr (ha.within h.own).own fun k => ?_
  obtain ⟨a, hk⟩ := ha k
  rw [hk, Option.map_map]
  rfl

omit [Double F] [DecidableEq L] in
theorem OwnersOk.map (h : OwnersOk ps o fj) {f : ℕ → VehItem F L → VehItem F L}
    (hf : ∀ k v, (f k v).vehItem.id = v.vehItem.id ∧ (f k v).status = v.status) :
    OwnersOk ps o (fj.map f) := by
  refine h.congr (Within.map h.own fun k v => (hf k v).1).own fun k => ?_
  rw [ExtTreeMap.getElem?_map, Option.map_map]
  refine congrArg (fun g => Option.map g fj[k]?) (funext fun v => ?_)
  exact (hf k v).2

omit [DecidableEq L] in
theorem prepare_ownersOk (hs : s.OwnersOk ps) (h : prepare s frame = some s') : s'.OwnersOk ps := by
  obtain ⟨fj, hfj, rfl⟩ := map_eq_some_iff.mp h
  have hreset : V2I.Snapshot.OwnersOk ps s.owners (resetStatus s frame.lights).fj :=
    OwnersOk.map hs fun _ _ => ⟨rfl, rfl⟩
  exact hreset.accelerated (junctionIdmPlanning_accelerated hfj)

omit [DecidableEq L] in
theorem setTargets_ownersOk (hs : s.OwnersOk ps) : (setTargets P s).1.OwnersOk ps := by
  refine OwnersOk.map hs fun k v => ?_
  split_ifs
  · exact ⟨rfl, rfl⟩
  · exact ⟨rfl, rfl⟩

/-- **One frame**: the lists stay those of the passages. -/
theorem improveFusionTargetToJunction_ownersOk {out : Output F}
    (h : improveFusionTargetToJunction P s frame = some (s', out)) (htables : TablesOk s)
    (hs : s.OwnersOk ps) : s'.OwnersOk (ps ++ framePassages P s frame) := by
  obtain ⟨s₁, s₂, calls, owners, calls', fj, fm, hprep, hobs, hfj, hfm, rfl, -⟩ :=
    improveFusionTargetToJunction_eq_some h
  have htables₂ := observeAll_tablesOk (prepare_tablesOk htables hprep) hobs
  have htables₃ : TablesOk { s₂ with fj := fj, owners := owners, fm := dropMissing fm } :=
    htables₂.within (.refl htables₂.fn) (junctionPlanning_within htables₂.fj hfj)
      ((Within.filter (missingPlanning_within htables₂.fm hfm).own _).trans
        (missingPlanning_within htables₂.fm hfm))
  have h₂ := observeAll_ownersOk (prepare_ownersOk hs hprep) hobs
  have h₃ := junctionPlanning_ownersOk h₂ hfj
  have h₄ : ({ s₂ with fj := fj, owners := owners, fm := dropMissing fm } : State F L).OwnersOk _ :=
    h₃
  have hps : framePassages P s frame = observePassages P frame s₁ frame.targets ++
      (planningPassages s₂.jinfo s₂.lights s₂.fj.toList (getProcessTime s frame.pkgtime) ++
        leavePassages fj.toList) := by
    simp only [framePassages, hprep, hobs, hfj]
  rw [hps, ← append_assoc, ← append_assoc]
  exact setTargets_ownersOk
    (normalToJunction_ownersOk (junctionToMissing_ownersOk h₄) (junctionToMissing_tablesOk htables₃))

/-! ## The intelligent driver model -/

omit [DecidableEq L] in
/-- The acceleration does not depend on earlier accelerations. -/
theorem calcAcceleration_a (p : Option (VehItem F L)) (v : VehItem F L) (x y m : F) :
    calcAcceleration (p.map fun w => { w with a := x }) { v with a := y } m =
      calcAcceleration p v m := by
  cases p <;> rfl

omit [DecidableEq L] in
/-- A vehicle that is not in the list keeps its record. -/
theorem junctionIdmProcess_other {vehs vehs' : Table F L} {prev : Option (VehItem F L)}
    {ids : List ℕ} (h : junctionIdmProcess vehs prev ids = some vehs') (hk : k ∉ ids) :
    vehs'[k]? = vehs[k]? := by
  induction ids generalizing vehs prev with
  | nil =>
      cases h
      rfl
  | cons id ids ih =>
      rw [mem_cons, not_or] at hk
      obtain ⟨hne, hids⟩ := hk
      unfold junctionIdmProcess at h
      split at h
      · cases h
      · rw [ih h hids, ExtTreeMap.getElem?_insert, if_neg fun heq => hne (Nat.compare_eq_eq.mp heq).symm]

variable {t : Table F L} {p : Option (VehItem F L)}

omit [DecidableEq L] in
/-- The walk along a list finds every vehicle of it in the table. -/
theorem junctionIdmProcess_isSome {l : List ℕ} (ht : Accelerated fj t) (hids : ∀ k ∈ l, k ∈ fj) :
    ∃ t', junctionIdmProcess t p l = some t' := by
  induction l generalizing t p with
  | nil => exact ⟨t, rfl⟩
  | cons id ids ih =>
      obtain ⟨hid, hids⟩ := forall_mem_cons.mp hids
      obtain ⟨v, hv⟩ := isSome_iff_exists.mp (ExtTreeMap.mem_iff_isSome_getElem?.mp hid)
      obtain ⟨a, ha⟩ := ht id
      rw [hv, map_some] at ha
      unfold junctionIdmProcess
      rw [ha]
      exact ih (ht.trans (Accelerated.insert ha _)) hids

omit [DecidableEq L] in
/-- **One list**: each vehicle reacts to the one before it, the first to `p`. -/
theorem junctionIdmProcess_pairs {t' : Table F L} {x : F} {before after : List ℕ}
    (ht : Accelerated fj t)
    (h : junctionIdmProcess t (p.map fun w => { w with a := x }) (before ++ k :: after) = some t')
    (hnodup : (before ++ k :: after).Nodup) :
    t'[k]? = fj[k]?.map fun v => { v with
      a := calcAcceleration (before.getLast?.elim p (fj[·]?)) v (desiredSpeed v) } := by
  induction before generalizing t p x with
  | nil =>
      obtain ⟨hk, -⟩ := nodup_cons.mp hnodup
      obtain ⟨a, ha⟩ := ht k
      rw [nil_append, junctionIdmProcess] at h
      split at h
      · cases h
      · next item hitem =>
          rw [junctionIdmProcess_other h hk, ExtTreeMap.getElem?_insert_self]
          rw [hitem] at ha
          obtain ⟨v, hv, rfl⟩ := map_eq_some_iff.mp ha.symm
          rw [hv, map_some, calcAcceleration_a]
          rfl
  | cons id before ih =>
      obtain ⟨-, hnodup'⟩ := nodup_cons.mp hnodup
      obtain ⟨a, ha⟩ := ht id
      rw [cons_append, junctionIdmProcess] at h
      split at h
      · cases h
      · next item hitem =>
          have ht' := ht.trans (Accelerated.insert hitem
            (calcAcceleration (p.map fun w => { w with a := x }) item (desiredSpeed item)))
          rw [hitem] at ha
          obtain ⟨v, hv, rfl⟩ := map_eq_some_iff.mp ha.symm
          rw [ih (p := some v) ht' h hnodup', getLast?_cons]
          cases before.getLast? with
          | none => rw [elim_none, getD_none, elim_some, hv]
          | some last => rfl

/-- The incoming lanes in the order in which they are planned. -/
def incommingLanes (info : JuncionInfo F L) : List (ℕ × ℤ) :=
  info.roadInfo.toList.flatMap fun rd => rd.2.laneInfo.toList.map fun lane => (rd.1, lane.1)

omit [DecidableEq L] in
theorem junctionIdmPlanning_eq (info : JuncionInfo F L) (o : Owners) (vehs : Table F L) :
    junctionIdmPlanning (some info) o vehs = (incommingLanes info).foldlM
      (fun vehs lane => junctionIdmProcess vehs none (o lane.1 lane.2)) vehs := by
  unfold junctionIdmPlanning incommingLanes
  dsimp only
  induction info.roadInfo.toList generalizing vehs with
  | nil => rfl
  | cons rd rds ih =>
      rw [foldlM_cons, flatMap_cons, foldlM_append, foldlM_map]
      exact congrArg _ (funext fun t => ih t)

omit [DecidableEq L] in
/-- **All lists**: the lists are apart, so every vehicle of a list reacts to the one before it
in its own list. -/
theorem foldlM_junctionIdmProcess_pairs (hok : OwnersOk ps o fj) (ht : Accelerated fj t)
    (lanes : List (ℕ × ℤ)) :
    ∃ t', lanes.foldlM (fun vehs lane => junctionIdmProcess vehs none (o lane.1 lane.2)) t =
        some t' ∧ Accelerated fj t' ∧
      ∀ road lane before k after, o road lane = before ++ k :: after →
        ((road, lane) ∈ lanes ∨ t[k]? = fj[k]?.map fun v => { v with
          a := calcAcceleration (before.getLast?.bind (fj[·]?)) v (desiredSpeed v) }) →
        t'[k]? = fj[k]?.map fun v => { v with
          a := calcAcceleration (before.getLast?.bind (fj[·]?)) v (desiredSpeed v) } := by
  induction lanes generalizing t with
  | nil =>
      refine ⟨t, rfl, ht, fun road lane before k after _ h => h.resolve_left ?_⟩
      exact not_mem_nil
  | cons first lanes ih =>
      obtain ⟨t₁, ht₁⟩ := junctionIdmProcess_isSome (p := none) (l := o first.1 first.2) ht
        fun k hk => by
          obtain ⟨v, hv, -⟩ := (hok.mem k).mp ⟨_, _, hk⟩
          exact mem_of_getElem? hv
      have hacc₁ := ht.trans (junctionIdmProcess_accelerated ht₁)
      obtain ⟨t', hfold, hacc', hpairs⟩ := ih hacc₁
      refine ⟨t', by rw [foldlM_cons, ht₁]; exact hfold, hacc', ?_⟩
      intro road lane before k after hlist hk
      refine hpairs road lane before k after hlist ?_
      by_cases hfirst : k ∈ o first.1 first.2
      · obtain ⟨hroad, hlane⟩ := hok.apart _ _ road lane k hfirst (by simp [hlist])
        rw [hroad, hlane, hlist] at ht₁
        have hnodup : (before ++ k :: after).Nodup := hlist ▸ hok.nodup road lane
        refine .inr ?_
        rw [junctionIdmProcess_pairs (p := none) (x := ofRat 0) ht ht₁ hnodup]
        cases before.getLast? <;> rfl
      · rw [junctionIdmProcess_other ht₁ hfirst]
        refine hk.imp_left fun hmem => (mem_cons.mp hmem).resolve_left ?_
        rintro rfl
        exact hfirst (by simp [hlist])

omit [DecidableEq L] in
/-- **The start of a frame** finds every vehicle of every list, and each reacts to the one
before it. -/
theorem prepare_pairs (hs : s.OwnersOk ps) (frame : Frame F L) : ∃ s₁, prepare s frame = some s₁ ∧
      ∀ info, s.jinfo = some info → ∀ road lane before k after,
        (road, lane) ∈ incommingLanes info → s.owners road lane = before ++ k :: after →
        s₁.fj[k]? = s.fj[k]?.map fun v => { v with
          bused := false
          a := calcAcceleration (before.getLast?.bind (s.fj[·]?)) v (desiredSpeed v) } := by
  cases hinfo : s.jinfo with
  | none =>
      refine ⟨resetStatus s frame.lights, ?_, nofun⟩
      simp only [prepare, resetStatus, hinfo, junctionIdmPlanning, map_some]
  | some info =>
      have hreset : V2I.Snapshot.OwnersOk ps s.owners (resetStatus s frame.lights).fj :=
        OwnersOk.map hs fun _ _ => ⟨rfl, rfl⟩
      obtain ⟨t', hfold, -, hpairs⟩ := foldlM_junctionIdmProcess_pairs hreset
        (.refl _) (incommingLanes info)
      have hplan : junctionIdmPlanning (resetStatus s frame.lights).jinfo
          (resetStatus s frame.lights).owners (resetStatus s frame.lights).fj = some t' := by
        rw [← hfold, ← junctionIdmPlanning_eq, ← hinfo]
        rfl
      refine ⟨{ resetStatus s frame.lights with fj := t' }, ?_, ?_⟩
      · simp only [prepare, hplan, map_some]
      · intro info' heq road lane before k after hmem hlist
        cases heq
        rw [hpairs road lane before k after hlist (.inl hmem)]
        have hget : ∀ i : ℕ, (resetStatus s frame.lights).fj[i]? =
            s.fj[i]?.map fun v => { v with bused := false } := by
          intro i
          exact ExtTreeMap.getElem?_map
        rw [hget, Option.map_map]
        refine congrArg (fun g => Option.map g s.fj[k]?) (funext fun v => ?_)
        cases hlast : before.getLast? with
        | none => rfl
        | some i =>
            simp only [Function.comp_apply, bind_some, hget]
            cases s.fj[i]? <;> rfl

/-! ## Runs -/

theorem run_ownersOk {frames : List (Frame F L)} {outs : List (Output F)} (hs : s.OwnersOk ps)
    (htables : TablesOk s)
    (h : run (improveFusionTargetToJunction P) s frames = some (s', outs)) :
    s'.OwnersOk (ps ++ passages P s frames) := by
  induction frames generalizing s ps outs with
  | nil =>
      cases h
      rwa [passages, append_nil]
  | cons frame frames ih =>
      obtain ⟨s₁, out, outs', hc, hrun, -⟩ := run_cons_eq_some_iff.mp h
      rw [passages, hc]
      dsimp only
      rw [← append_assoc]
      exact ih (improveFusionTargetToJunction_ownersOk hc htables hs)
        (improveFusionTargetToJunction_tablesOk hc htables).1 hrun

omit [Double F] [DecidableEq L] in
theorem State.init_ownersOk (jinfo : Option (JuncionInfo F L)) :
    (State.init F L jinfo).OwnersOk [] := by
  refine ⟨(State.init_tablesOk jinfo).fj, ?_, ?_, ?_, ?_, ?_⟩ <;> simp [State.init, present]

/-- **The lists of the junction**, after any frames: the list of a lane has, each once and in
the order of their entries, the vehicles that entered through it and have not left since; these
are the vehicles of the table with status 1; and the next frame finds them all and lets each
react to the vehicle that entered through its lane directly before it. -/
theorem owner_lists_in_order (P : Planner F L) (jinfo : Option (JuncionInfo F L))
    (frames : List (Frame F L)) (s : State F L) (outs : List (Output F))
    (h : run (improveFusionTargetToJunction P) (State.init F L jinfo) frames =
      some (s, outs)) :
    (∀ road lane, s.owners road lane =
        present road lane (passages P (State.init F L jinfo) frames) ∧
      (s.owners road lane).Nodup) ∧
    (∀ k, (∃ road lane, k ∈ s.owners road lane) ↔
      ∃ v : VehItem F L, s.fj[k]? = some v ∧ v.status = 1) ∧
    (∀ road lane road' lane' k, k ∈ s.owners road lane → k ∈ s.owners road' lane' →
      road = road' ∧ lane = lane') ∧
    ∀ frame, ∃ s₁, prepare s frame = some s₁ ∧
      ∀ info, s.jinfo = some info → ∀ road lane before k after,
        (road, lane) ∈ incommingLanes info → s.owners road lane = before ++ k :: after →
        s₁.fj[k]? = s.fj[k]?.map fun v => { v with
          bused := false
          a := calcAcceleration (before.getLast?.bind (s.fj[·]?)) v (desiredSpeed v) } := by
  have hs : s.OwnersOk ([] ++ passages P (State.init F L jinfo) frames) :=
    run_ownersOk (State.init_ownersOk jinfo) (State.init_tablesOk jinfo) h
  rw [nil_append] at hs
  exact ⟨fun road lane => ⟨hs.lists road lane, hs.nodup road lane⟩, hs.mem, hs.apart,
    prepare_pairs hs⟩

/-- Vehicle 8 follows vehicle 7 into the junction. -/
def twoEnter : List (Frame ℚ ℕ) :=
  [(1000, 998 / 10, 90), (1100, 101, 998 / 10), (1200, 102, 101)].map fun (pkgtime, x, y) =>
    { crossingFrame pkgtime x with
      targets := [⟨7, targetTypeCar, x, 0, 90, 36⟩, ⟨8, targetTypeCar, y, 0, 90, 36⟩] }

/-- They are in the list of lane 1, the one that entered first in front. -/
theorem owner_lists_in_order_crossing : ∃ s outs,
    run (improveFusionTargetToJunction crossing) (State.init ℚ ℕ (some crossingJunction)) twoEnter =
      some (s, outs) ∧ s.owners 0 1 = [7, 8] ∧
    (∀ road lane, s.owners road lane = present road lane
        (passages crossing (State.init ℚ ℕ (some crossingJunction)) twoEnter) ∧
      (s.owners road lane).Nodup) := by
  have hrun : (run (improveFusionTargetToJunction crossing)
      (State.init ℚ ℕ (some crossingJunction)) twoEnter).any
        (fun p => p.1.owners 0 1 == [7, 8]) = true := by
    decide +kernel
  obtain ⟨⟨s, outs⟩, h, hlist⟩ := exists_of_any hrun
  exact ⟨s, outs, h, beq_iff_eq.mp hlist,
    (owner_lists_in_order crossing (some crossingJunction) twoEnter s outs h).1⟩

end V2I.Snapshot
