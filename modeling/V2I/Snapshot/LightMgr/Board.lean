import V2I.Snapshot.LightMgr

/-!
# V2I.Snapshot.LightMgr.Board

What the light manager is for: every light has a state, and a planner that asks knows the
states of the lights of its junction. `Board` says what the state of a light is: that of its
last accepted report, and 1 as long as there was none. A light that is taken off its last
junction is forgotten.

`lights_reach_consumers` ties the three maps of the manager, the flags and what each planner
has read to the board, for the calls of all threads in any order.
-/

namespace V2I.LightMgr

open Option Function StdMap

/-! ## The board -/

/-- The junctions a light hangs at, and its state. -/
structure Board where
  juncs : Int32 → List Int32
  state : Int32 → Int32

def Board.new : Board := ⟨fun _ => [], fun _ => 1⟩

/-- What a call means for the board. Calls that were refused mean nothing. -/
def Board.next (b : Board) : Call × Reply → Board
  | (.addLight juncId lightId, .ok ()) =>
      let juncs := b.juncs lightId
      { b with juncs :=
          update b.juncs lightId (if juncId ∈ juncs then juncs else juncs ++ [juncId]) }
  | (.removeLight juncId lightId, .ok ()) =>
      let juncs := (b.juncs lightId).filter (· ≠ juncId)
      { juncs := update b.juncs lightId juncs
        state := if juncs = [] then update b.state lightId 1 else b.state }
  | (.updateLightState (some ⟨some id, _, _, some state⟩), .ok ()) =>
      { b with state := update b.state id.toInt32 state.toInt32 }
  | _ => b

/-- The board after some calls. -/
def board (hist : List (Call × Reply)) : Board := hist.foldl Board.next .new

/-- The state of the last report on a light that was ever accepted, 1 before the first. -/
def lastReport (lightId : Int32) (hist : List (Call × Reply)) : Int32 :=
  hist.foldl (fun state e =>
    match e with
    | (.updateLightState (some ⟨some id, _, _, some state'⟩), .ok ()) =>
        if id.toInt32 = lightId then state'.toInt32 else state
    | _ => state) 1

/-- The lights of a junction. -/
def lightsOf (s : VssLightMgr) (juncId : Int32) : List Int32 :=
  ((s.juncLights.find juncId).map fun junc => junc.lights.keys).getD []

/-- The junctions of a light. -/
def juncsOf (m : StdMap Int32 (List Int32)) (lightId : Int32) : List Int32 :=
  (m.find lightId).getD []

/-! ## The maps agree -/

/-- The pointer of a junction to one of its lights. -/
def linkOf (m : StdMap Int32 JuncLights) (juncId lightId : Int32) : Option ℕ :=
  (m.find juncId).bind fun junc => junc.lights.find lightId

theorem linkOf_set (m : StdMap Int32 JuncLights) (j j' l : Int32) (junc : JuncLights) :
    linkOf (m.set j junc) j' l = if j' = j then junc.lights.find l else linkOf m j' l := by
  simp only [linkOf, find_set]
  split_ifs <;> rfl

variable (m : StdMap Int32 (List Int32))

theorem juncsOf_set (l l' : Int32) (js : List Int32) :
    juncsOf (m.set l js) l' = if l' = l then js else juncsOf m l' := by
  simp only [juncsOf, find_set]
  split_ifs <;> rfl

theorem juncsOf_erase (l l' : Int32) :
    juncsOf (m.erase l) l' = if l' = l then [] else juncsOf m l' := by
  simp only [juncsOf, find_erase]
  split_ifs <;> rfl

variable {j l : Int32}

theorem mem_lightsOf {s : VssLightMgr} :
    l ∈ lightsOf s j ↔ ∃ p, linkOf s.juncLights j l = some p := by
  unfold lightsOf linkOf
  cases s.juncLights.find j with
  | none => simp
  | some junc =>
      rw [← isSome_iff_exists, isSome_iff_ne_none]
      simp [find_eq_none_iff]

theorem find_flagJuncs (js : List Int32) (m : StdMap Int32 JuncLights) (j : Int32) :
    (flagJuncs js m).find j =
      (m.find j).map fun junc => if j ∈ js then { junc with update := true } else junc := by
  induction js generalizing m with
  | nil => simp [flagJuncs]
  | cons j' js ih =>
      rw [flagJuncs, List.foldl_cons, ← flagJuncs, ih, find_modify]
      by_cases hj : j = j'
      · cases m.find j <;> simp [hj]
      · simp [hj]

theorem linkOf_flagJuncs (js : List Int32) (m : StdMap Int32 JuncLights) (j l : Int32) :
    linkOf (flagJuncs js m) j l = linkOf m j l := by
  rw [linkOf, linkOf, find_flagJuncs]
  cases m.find j with
  | none => rfl
  | some junc =>
      by_cases hj : j ∈ js <;> simp [hj]

/-- **The manager tracks the board.** A light is known as long as it hangs somewhere, a
junction points at the `light_info` of exactly those lights that hang at it, and a junction
whose flag is down has told its planner everything. -/
structure Tracks (w : World) (b : Board) : Prop where
  juncs : ∀ l, b.juncs l = juncsOf w.mgr.lightJuncs l
  known : ∀ l, (w.mgr.lights.find l).isSome = (w.mgr.lightJuncs.find l).isSome
  used : ∀ l, w.mgr.lightJuncs.find l ≠ some []
  link : ∀ j l, linkOf w.mgr.juncLights j l =
    if j ∈ juncsOf w.mgr.lightJuncs l then w.mgr.lights.find l else none
  holds : ∀ l p, w.mgr.lights.find l = some p →
    ∃ info, w.mgr.heap[p]? = some info ∧ info.id = l ∧ info.state = b.state l
  fresh : ∀ l, w.mgr.lights.find l = none → b.state l = 1
  quiet : ∀ j junc, w.mgr.juncLights.find j = some junc → junc.update = false →
    ∀ l ∈ junc.lights.keys, (w.consumers j).find l = some (b.state l)

theorem tracks_new : Tracks .new .new where
  juncs _ := rfl
  known _ := rfl
  used _ := nofun
  link _ _ := rfl
  holds _ _ := nofun
  fresh _ _ := rfl
  quiet _ _ := nofun

/-! ## One call -/

theorem mem_addJunc {js : List Int32} {j' : Int32} :
    j' ∈ (if j ∈ js then js else js ++ [j]) ↔ j' = j ∨ j' ∈ js := by
  split_ifs with hj
  · exact ⟨.inr, fun h => h.elim (fun heq => heq ▸ hj) id⟩
  · simp [or_comm]

variable {w : World} {b : Board}

theorem Tracks.find_of_mem (h : Tracks w b) (hj : j ∈ juncsOf w.mgr.lightJuncs l) :
    ∃ p, w.mgr.lights.find l = some p := by
  rw [← isSome_iff_exists, h.known]
  unfold juncsOf at hj
  cases hl : w.mgr.lightJuncs.find l with
  | none => rw [hl] at hj; cases hj
  | some js => rfl

/-- The `light_info` that `add_light` uses. -/
theorem Tracks.lightOf (h : Tracks w b) (l : Int32) :
    (∀ p, w.mgr.lights.find l = some p → (lightOf w.mgr l).2 = p) ∧
    (∀ l', (lightOf w.mgr l).1.lights.find l' =
      if l' = l then some (lightOf w.mgr l).2 else w.mgr.lights.find l') ∧
    ∀ l' p, (LightMgr.lightOf w.mgr l).1.lights.find l' = some p →
      ∃ info, (LightMgr.lightOf w.mgr l).1.heap[p]? = some info ∧ info.id = l' ∧
        info.state = b.state l' := by
  unfold LightMgr.lightOf
  cases hl : w.mgr.lights.find l with
  | some p =>
      refine ⟨fun p' hp' => some.inj hp', fun l' => ?_, h.holds⟩
      split_ifs with heq
      · rw [heq, hl]
      · rfl
  | none =>
      refine ⟨fun p hp => ?_, fun l' => find_set _ _ _ _, fun l' p hp => ?_⟩
      · cases hp
      simp only [find_set] at hp ⊢
      split_ifs at hp with heq
      · cases hp
        exact ⟨⟨l, 0, 1, 0⟩, by simp, heq.symm, by rw [heq]; exact (h.fresh l hl).symm⟩
      · obtain ⟨info, hinfo, hid⟩ := h.holds l' p hp
        exact ⟨info, by rw [List.getElem?_append_left (List.getElem?_eq_some_iff.mp hinfo).1, hinfo], hid⟩

theorem addLight_tracks (h : Tracks w b) (j l : Int32) (hl : ¬ l < 0) :
    Tracks { w with mgr := (addLight w.mgr j l).1 } (b.next (.addLight j l, .ok ())) := by
  obtain ⟨hptr, hlights, hholds⟩ := h.lightOf l
  have hlink : ∀ l', ((w.mgr.juncLights.find j).getD ⟨true, .empty⟩).lights.find l' =
      linkOf w.mgr.juncLights j l' := by
    intro l'
    unfold linkOf
    cases w.mgr.juncLights.find j <;> rfl
  simp only [addLight, hl, if_false, Board.next]
  rw [h.juncs, juncsOf]
  constructor
  · intro l'
    simp only [juncsOf_set, update_apply, h.juncs]
  · intro l'
    simp only [hlights, find_set]
    by_cases hl' : l' = l
    · simp [hl']
    · simpa [hl'] using h.known l'
  · intro l'
    simp only [find_set]
    split_ifs with hl' hj
    · intro heq
      rw [some.injEq] at heq
      simp [heq] at hj
    · simp
    · exact h.used l'
  · intro j' l'
    rw [linkOf_set, juncsOf_set, hlights, find_set, hlink, h.link, h.link]
    by_cases hl' : l' = l
    · subst hl'
      simp only [if_true, mem_addJunc]
      rw [← juncsOf]
      by_cases hj : j' = j
      · simp [hj]
      · by_cases hmem : j' ∈ juncsOf w.mgr.lightJuncs l'
        · obtain ⟨p, hp⟩ := h.find_of_mem hmem
          simp [hj, hmem, hp, hptr p hp]
        · simp [hj, hmem]
    · by_cases hj : j' = j <;> simp [hj, hl']
  · exact hholds
  · intro l' hl'
    refine h.fresh l' ?_
    simp only [hlights] at hl'
    split_ifs at hl'
    exact hl'
  · intro j' junc hjunc hup
    simp only [find_set] at hjunc
    split_ifs at hjunc with hj
    · cases hjunc
      cases hup
    · exact h.quiet j' junc hjunc hup

variable {junc : JuncLights}

/-- The links without a light that leaves a junction. -/
theorem linkOf_detach (hjunc : w.mgr.juncLights.find j = some junc) (j' l' : Int32) :
    linkOf (w.mgr.juncLights.set j { junc with lights := junc.lights.erase l }) j' l' =
      if j' = j ∧ l' = l then none else linkOf w.mgr.juncLights j' l' := by
  have hjlink : junc.lights.find l' = linkOf w.mgr.juncLights j l' := by
    rw [linkOf, hjunc, bind_some]
  rw [linkOf_set, find_erase, hjlink]
  by_cases hj : j' = j <;> by_cases hl' : l' = l <;> simp [hj, hl']

/-- A flag that is down was down before. -/
theorem Tracks.quiet_detach (h : Tracks w b) (hjunc : w.mgr.juncLights.find j = some junc)
    {j' : Int32} {junc' : JuncLights}
    (hjunc' : (w.mgr.juncLights.set j
      { junc with lights := junc.lights.erase l }).find j' = some junc')
    (hup : junc'.update = false) {l' : Int32} (hl' : l' ∈ junc'.lights.keys) :
    (w.consumers j').find l' = some (b.state l') := by
  rw [find_set] at hjunc'
  split_ifs at hjunc' with hj
  · cases hjunc'
    exact hj ▸ h.quiet j junc hjunc hup l' (mem_keys_erase.mp hl').1
  · exact h.quiet j' junc' hjunc' hup l' hl'

/-- The light hung at this junction alone, and is forgotten. -/
theorem Tracks.detach_last (h : Tracks w b) (hjunc : w.mgr.juncLights.find j = some junc)
    (hlast : (juncsOf w.mgr.lightJuncs l).filter (· ≠ j) = []) :
    Tracks
      { w with mgr := { w.mgr with
          juncLights := w.mgr.juncLights.set j { junc with lights := junc.lights.erase l }
          lightJuncs := w.mgr.lightJuncs.erase l
          lights := w.mgr.lights.erase l } }
      ⟨update b.juncs l [], update b.state l 1⟩ := by
  have hgone : ∀ j' ∈ juncsOf w.mgr.lightJuncs l, j' = j := by
    intro j' hj'
    by_contra hne
    have hmem : j' ∈ (juncsOf w.mgr.lightJuncs l).filter (· ≠ j) :=
      List.mem_filter.mpr ⟨hj', by simpa using hne⟩
    rw [hlast] at hmem
    cases hmem
  constructor
  · intro l'
    simp only [update_apply, juncsOf_erase, h.juncs]
  · intro l'
    simp only [find_erase]
    split_ifs
    · rfl
    · exact h.known l'
  · intro l'
    simp only [find_erase]
    split_ifs
    · intro hused
      cases hused
    · exact h.used l'
  · intro j' l'
    rw [linkOf_detach hjunc, juncsOf_erase, find_erase, h.link]
    by_cases hl' : l' = l
    · subst hl'
      by_cases hj : j' = j
      · simp [hj]
      · have hnot : j' ∉ juncsOf w.mgr.lightJuncs l' := fun hmem => hj (hgone j' hmem)
        simp [hj, hnot]
    · simp [hl']
  · intro l' p hp
    simp only [find_erase, update_apply] at hp ⊢
    split_ifs at hp with hl'
    simpa [hl'] using h.holds l' p hp
  · intro l' hl'
    simp only [find_erase, update_apply] at hl' ⊢
    split_ifs at hl' ⊢ with heq
    · rfl
    · exact h.fresh l' hl'
  · intro j' junc' hjunc' hup l' hl'
    -- the light itself is not asked for any more
    have hne : l' ≠ l := by
      rintro rfl
      have hsome : linkOf (w.mgr.juncLights.set j
          { junc with lights := junc.lights.erase l' }) j' l' ≠ none := by
        rw [linkOf, hjunc', bind_some]
        exact fun hnone => find_eq_none_iff.mp hnone hl'
      rw [linkOf_detach hjunc, h.link] at hsome
      refine hsome ?_
      by_cases hmem : j' ∈ juncsOf w.mgr.lightJuncs l'
      · simp [hgone j' hmem]
      · simp [hmem]
    simpa [update_apply, hne] using h.quiet_detach hjunc hjunc' hup hl'

/-- The light hangs at other junctions too, and stays. -/
theorem Tracks.detach_other (h : Tracks w b) (hjunc : w.mgr.juncLights.find j = some junc)
    (hlast : (juncsOf w.mgr.lightJuncs l).filter (· ≠ j) ≠ []) :
    Tracks
      { w with mgr := { w.mgr with
          juncLights := w.mgr.juncLights.set j { junc with lights := junc.lights.erase l }
          lightJuncs := w.mgr.lightJuncs.set l ((juncsOf w.mgr.lightJuncs l).filter (· ≠ j)) } }
      ⟨update b.juncs l ((juncsOf w.mgr.lightJuncs l).filter (· ≠ j)), b.state⟩ := by
  constructor
  · intro l'
    simp only [update_apply, juncsOf_set, h.juncs]
  · intro l'
    simp only [find_set]
    split_ifs with hl'
    · rw [hl', h.known]
      cases hfind : w.mgr.lightJuncs.find l with
      | none => simp [juncsOf, hfind] at hlast
      | some js => rfl
    · exact h.known l'
  · intro l'
    simp only [find_set]
    split_ifs
    · exact fun heq => hlast (some.inj heq)
    · exact h.used l'
  · intro j' l'
    rw [linkOf_detach hjunc, juncsOf_set, h.link]
    by_cases hl' : l' = l
    · by_cases hj : j' = j <;> simp [hl', hj]
    · simp [hl']
  · exact h.holds
  · exact h.fresh
  · exact fun _ _ hjunc' hup _ hl' => h.quiet_detach hjunc hjunc' hup hl'

theorem detachLight_tracks (h : Tracks w b) (hjunc : w.mgr.juncLights.find j = some junc) :
    Tracks { w with mgr := detachLight w.mgr j l junc } (b.next (.removeLight j l, .ok ())) := by
  simp only [detachLight, Board.next, h.juncs]
  rw [← juncsOf]
  split_ifs with hlast
  · rw [hlast]
    exact h.detach_last hjunc hlast
  · exact h.detach_other hjunc hlast

theorem removeLight_tracks (h : Tracks w b) (j l : Int32) :
    Tracks { w with mgr := (removeLight w.mgr j l).1 }
      (b.next (.removeLight j l, (removeLight w.mgr j l).2)) := by
  by_cases hl : l < 0
  · simpa [removeLight, hl, Board.next] using h
  cases hjunc : w.mgr.juncLights.find j with
  | none => simpa [removeLight, hl, hjunc, Board.next] using h
  | some junc =>
      cases hptr : junc.lights.find l with
      | none => simpa [removeLight, hl, hjunc, hptr, Board.next] using h
      | some p => simpa [removeLight, hl, hjunc, hptr] using detachLight_tracks (l := l) h hjunc

/-- A written `light_info` is that of one light only. -/
theorem Tracks.holds_set (h : Tracks w b) {id : Int32} {ptr : ℕ}
    (hptr : w.mgr.lights.find id = some ptr) (light : LightInfo) (hid : light.id = id) (l : Int32)
    (p : ℕ) (hp : w.mgr.lights.find l = some p) :
    ∃ info, (w.mgr.heap.set ptr light)[p]? = some info ∧ info.id = l ∧
      info.state = update b.state id light.state l := by
  obtain ⟨info, hinfo, hl, hstate⟩ := h.holds l p hp
  by_cases hpp : ptr = p
  · subst hpp
    obtain ⟨info', hinfo', hid', -⟩ := h.holds id ptr hptr
    obtain rfl : info = info' := some.inj (hinfo.symm.trans hinfo')
    have hbound := (List.getElem?_eq_some_iff.mp hinfo).1
    refine ⟨light, by simp [hbound], by rw [hid, ← hid', hl], ?_⟩
    rw [← hl, hid', update_self]
  · have hne : l ≠ id := by
      rintro rfl
      exact hpp (some.inj (hptr.symm.trans hp))
    exact ⟨info, by rw [List.getElem?_set_ne hpp, hinfo], hl, by rw [update_of_ne hne, hstate]⟩

theorem writeState_tracks (h : Tracks w b) {id : Int32} {ptr : ℕ}
    (hptr : w.mgr.lights.find id = some ptr) (timestamp : UInt64) (endtime state : Int32) :
    ∃ s, writeState w.mgr id ptr timestamp endtime state = some s ∧
      Tracks { w with mgr := s } { b with state := update b.state id state } := by
  obtain ⟨info, hinfo, hid, hstate⟩ := h.holds id ptr hptr
  simp only [writeState, hinfo]
  split_ifs with hsame
  · refine ⟨_, rfl, ?_⟩
    have hboard : update b.state id state = b.state := by
      rw [← hsame, hstate, update_eq_self]
    have hset := h.holds_set hptr
      ⟨info.id, timestamp, info.state, endtime⟩ hid
    rw [hstate, update_eq_self, ← hstate] at hset
    rw [hboard]
    exact ⟨h.juncs, h.known, h.used, h.link, hset, h.fresh, h.quiet⟩
  · have hset := h.holds_set hptr
      { info with enttime := endtime, timestamp := timestamp, state := state } hid
    have hsome : (w.mgr.lightJuncs.find id).isSome := by
      rw [← h.known, hptr]
      rfl
    obtain ⟨js, hjs⟩ := isSome_iff_exists.mp hsome
    have hjuncs : juncsOf w.mgr.lightJuncs id = js := by rw [juncsOf, hjs, getD_some]
    have hall : js.all fun juncId => (w.mgr.juncLights.find juncId).isSome := by
      refine List.all_eq_true.mpr fun j hj => ?_
      have hlink := h.link j id
      rw [if_pos (hjuncs ▸ hj), hptr, linkOf] at hlink
      cases hfind : w.mgr.juncLights.find j with
      | none => simp [hfind] at hlink
      | some junc => rfl
    simp only [hjs, hall, if_true]
    refine ⟨_, rfl, h.juncs, h.known, h.used, fun j l => ?_, hset, fun l hl => ?_, ?_⟩
    · rw [linkOf_flagJuncs, h.link]
    · have hne : l ≠ id := by
        rintro rfl
        rw [hl] at hptr
        cases hptr
      exact (update_of_ne hne _ _).trans (h.fresh l hl)
    · intro j junc hjunc hup l hl
      rw [find_flagJuncs] at hjunc
      obtain ⟨junc', hjunc', heq⟩ := map_eq_some_iff.mp hjunc
      split_ifs at heq with hj
      · rw [← heq] at hup
        cases hup
      · subst heq
        -- the junction was not told, so the light does not hang at it
        have hne : l ≠ id := by
          rintro rfl
          have hlink := h.link j l
          rw [if_neg (hjuncs ▸ hj), linkOf, hjunc', bind_some] at hlink
          exact find_eq_none_iff.mp hlink hl
        exact (h.quiet j junc' hjunc' hup l hl).trans
          (congrArg some (update_of_ne hne _ _).symm)

@[simp]
theorem Board.next_error (b : Board) (c : Call) (e : Error) : b.next (c, .error e) = b := by
  unfold Board.next
  split <;> first | rfl | (next heq => cases heq)

theorem updateLightState_tracks (h : Tracks w b) (light : Option LightMsg) :
    ∃ r, updateLightState w.mgr light = some r ∧
      Tracks { w with mgr := r.1 } (b.next (.updateLightState light, r.2)) := by
  have hrefused (e : Error) : Tracks w (b.next (.updateLightState light, .error e)) := by
    rw [Board.next_error]
    exact h
  unfold updateLightState
  rcases light with _ | ⟨_ | jid, timestamp, endtime, state⟩
  · exact ⟨_, rfl, hrefused .ebadparm⟩
  · exact ⟨_, rfl, hrefused .ebadparm⟩
  cases hptr : w.mgr.lights.find jid.toInt32 with
  | none => exact ⟨(w.mgr, .error .enotallowed), by simp only [hptr], hrefused .enotallowed⟩
  | some ptr =>
      rcases timestamp with _ | timestamp
      · exact ⟨(w.mgr, .error .ebadparm), by simp only [hptr], hrefused .ebadparm⟩
      rcases state with _ | state
      · exact ⟨(w.mgr, .error .ebadparm), by simp only [hptr], hrefused .ebadparm⟩
      obtain ⟨s, hs, htracks⟩ := writeState_tracks h hptr timestamp.toUInt64
        ((endtime.map Int64.toInt32).getD (-1)) state.toInt32
      exact ⟨(s, .ok ()), by simp only [hptr, hs, map_some], htracks⟩

/-! ## Reading -/

theorem readStates_spec {heap : List LightInfo} {state : Int32 → Int32} {entries : List (Int32 × ℕ)}
    (h : ∀ e ∈ entries, ∃ info, heap[e.2]? = some info ∧ info.state = state e.1)
    (lights : StdMap Int32 Int32) :
    ∃ lights', readStates heap entries lights = some lights' ∧
      ∀ l, lights'.find l = if l ∈ entries.map Prod.fst then some (state l) else lights.find l := by
  induction entries generalizing lights with
  | nil => exact ⟨lights, rfl, by simp⟩
  | cons e entries ih =>
      obtain ⟨l, p⟩ := e
      obtain ⟨⟨info, hinfo, hstate⟩, hrest⟩ := List.forall_mem_cons.mp h
      obtain ⟨lights', hread, hfind⟩ := ih hrest (lights.set l info.state)
      refine ⟨lights', by rw [readStates, hinfo]; exact hread, fun l' => ?_⟩
      rw [hfind, find_set, hstate]
      by_cases hmem : l' ∈ entries.map Prod.fst
      · simp [hmem]
      · by_cases heq : l' = l <;> simp [hmem, heq]

/-- A planner that asks knows the lights of its junction. -/
theorem getLightState_tracks (h : Tracks w b) (j : Int32) :
    ∃ w' r, step w (.getLightState j) = some (w', r) ∧ Tracks w' b ∧
      ∀ l ∈ lightsOf w'.mgr j, (w'.consumers j).find l = some (b.state l) := by
  cases hjunc : w.mgr.juncLights.find j with
  | none =>
      refine ⟨w, .error .enotfound, by simp [step, getLightState, hjunc], h, ?_⟩
      simp [lightsOf, hjunc]
  | some junc =>
      cases hup : junc.update with
      | false =>
          refine ⟨w, .error .enotavail, by simp [step, getLightState, hjunc, hup], h, ?_⟩
          simpa [lightsOf, hjunc] using h.quiet j junc hjunc hup
      | true =>
          have hread : ∀ e ∈ junc.lights.entries,
              ∃ info, w.mgr.heap[e.2]? = some info ∧ info.state = b.state e.1 := by
            rintro ⟨l, p⟩ he
            have hlink := h.link j l
            rw [linkOf, hjunc, bind_some, find_eq_some_iff.mpr he] at hlink
            split_ifs at hlink
            obtain ⟨info, hinfo, -, hstate⟩ := h.holds l p hlink.symm
            exact ⟨info, hinfo, hstate⟩
          obtain ⟨lights, hlights, hfind⟩ := readStates_spec hread (w.consumers j)
          have hknows : ∀ l ∈ junc.lights.keys, lights.find l = some (b.state l) := by
            intro l hl
            rw [StdMap.keys] at hl
            rw [hfind, if_pos hl]
          have hlink : ∀ j' l, linkOf (w.mgr.juncLights.set j { junc with update := false }) j' l =
              linkOf w.mgr.juncLights j' l := by
            intro j' l
            rw [linkOf_set]
            split_ifs with heq
            · rw [heq, linkOf, hjunc, bind_some]
            · rfl
          refine ⟨⟨{ w.mgr with juncLights := w.mgr.juncLights.set j { junc with update := false } },
            update w.consumers j lights⟩, .ok (), ?_, ?_, ?_⟩
          · simp [step, getLightState, hjunc, hup, hlights]
          · refine ⟨h.juncs, h.known, h.used, fun j' l => (hlink j' l).trans (h.link j' l), h.holds,
              h.fresh, fun j' junc' hjunc' hup' l hl => ?_⟩
            rw [find_set] at hjunc'
            split_ifs at hjunc' with heq
            · cases hjunc'
              simpa only [heq, update_self] using hknows l hl
            · simpa only [update_of_ne heq] using h.quiet j' junc' hjunc' hup' l hl
          · simpa [lightsOf, find_set] using hknows

theorem step_tracks (h : Tracks w b) (c : Call) :
    ∃ w' r, step w c = some (w', r) ∧ Tracks w' (b.next (c, r)) := by
  cases c with
  | addLight j l =>
      by_cases hl : l < 0
      · exact ⟨w, .error .ebadparm, by simp [step, addLight, hl], by simpa using h⟩
      · exact ⟨_, _, rfl, by simpa [addLight, hl] using addLight_tracks h j l hl⟩
  | removeLight j l => exact ⟨_, _, rfl, removeLight_tracks h j l⟩
  | updateLightState light =>
      obtain ⟨r, hr, htracks⟩ := updateLightState_tracks h light
      exact ⟨_, r.2, by rw [step, hr, map_some], htracks⟩
  | getLightState j =>
      obtain ⟨w', r, hstep, htracks, -⟩ := getLightState_tracks h j
      exact ⟨w', r, hstep, htracks⟩

/-! ## All calls -/

theorem run_tracks (h : Tracks w b) (cs : List Call) :
    ∃ w' rs, Machine.run step w cs = some (w', rs) ∧ Tracks w' ((cs.zip rs).foldl Board.next b) := by
  induction cs generalizing w b with
  | nil => exact ⟨w, [], rfl, h⟩
  | cons c cs ih =>
      obtain ⟨w₁, r, hstep, h₁⟩ := step_tracks h c
      obtain ⟨w', rs, hrun, h'⟩ := ih h₁
      exact ⟨w', r :: rs, Machine.run_cons_eq_some_iff.mpr ⟨w₁, r, rs, hstep, hrun, rfl⟩, h'⟩

/-- **No change of a light is lost**: whatever the threads have called, the map from lights to
junctions is the inverse of that from junctions to lights, and a planner that asks now
knows of every light of its junction the state of the last report that was accepted since
the light was last without a junction, or 1. -/
theorem lights_reach_consumers (cs : List Call) :
    ∃ w rs, Machine.run step .new cs = some (w, rs) ∧
      (∀ j l, l ∈ lightsOf w.mgr j ↔ j ∈ juncsOf w.mgr.lightJuncs l) ∧
      (∀ l, w.mgr.lightJuncs.find l ≠ some []) ∧
      ∀ j, ∃ w' r, step w (.getLightState j) = some (w', r) ∧
        ∀ l ∈ lightsOf w'.mgr j, (w'.consumers j).find l = some ((board (cs.zip rs)).state l) := by
  obtain ⟨w, rs, hrun, h⟩ := run_tracks tracks_new cs
  refine ⟨w, rs, hrun, fun j l => ?_, h.used, fun j => ?_⟩
  · rw [mem_lightsOf, h.link]
    constructor
    · rintro ⟨p, hp⟩
      split_ifs at hp with hmem
      exact hmem
    · intro hmem
      obtain ⟨p, hp⟩ := h.find_of_mem hmem
      exact ⟨p, by rw [if_pos hmem, hp]⟩
  · obtain ⟨w', r, hstep, -, hknows⟩ := getLightState_tracks h j
    exact ⟨w', r, hstep, hknows⟩

/-- A report that light 5 shows `state`. -/
def report (state : Int64) : Call := .updateLightState (some ⟨some 5, some 0, none, some state⟩)

/-- Light 5 turns to state 3, is taken off its only junction and hung up again: the planner
reads the initial state, although the last report on the light carried 3. -/
theorem removed_light_forgets_report :
    ∃ w rs w' r, Machine.run step .new
        [.addLight 1 5, report 3, .removeLight 1 5, .addLight 1 5] = some (w, rs) ∧
      step w (.getLightState 1) = some (w', r) ∧ 5 ∈ lightsOf w'.mgr 1 ∧
      (w'.consumers 1).find 5 ≠ some (lastReport 5
        ([.addLight 1 5, report 3, .removeLight 1 5, .addLight 1 5].zip rs)) := by
  refine ⟨_, _, _, _, rfl, rfl, ?_, ?_⟩
  · decide
  · decide

end V2I.LightMgr
