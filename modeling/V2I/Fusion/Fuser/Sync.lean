import Mathlib.Data.List.Sort
import V2I.Fusion.Fuser
import V2I.Lib.Lookup

/-!
# V2I.Fusion.Fuser.Sync

The frames that `GetSyncFrames` combines, against all frames pushed so far.
-/

namespace V2I.Fusion

open List Option Machine

open Std (ExtTreeMap LawfulEqCmp)

variable {F M O : Type} {K : Kinematics M O} {duration : ℕ}

/-! ## what was pushed -/

/-- The frames of a device with one timestamp, in the order in which they were pushed. -/
def atTime (pushed : List (RaysunFrame O)) (devid : ℤ) (timestamp : ℕ) : List (RaysunFrame O) :=
  pushed.filter fun f => f.devid = devid ∧ f.timestamp = timestamp

/-- The newest frame of its device, the last one pushed of those with its timestamp. -/
structure Newest (pushed : List (RaysunFrame O)) (frame : RaysunFrame O) : Prop where
  last : (atTime pushed frame.devid frame.timestamp).getLast? = some frame
  greatest : ∀ g ∈ pushed, g.devid = frame.devid → g.timestamp ≤ frame.timestamp

/-- The frames of each device with one timestamp come in the same order. -/
def SameTies (pushed pushed' : List (RaysunFrame O)) : Prop :=
  ∀ devid timestamp, atTime pushed devid timestamp = atTime pushed' devid timestamp

variable {pushed : List (RaysunFrame O)} {f : RaysunFrame O} {devid : ℤ} {timestamp : ℕ}

theorem mem_atTime :
    f ∈ atTime pushed devid timestamp ↔
      f ∈ pushed ∧ f.devid = devid ∧ f.timestamp = timestamp := by
  simp [atTime]

theorem mem_of_getLast?_atTime (h : (atTime pushed devid timestamp).getLast? = some f) :
    f ∈ pushed ∧ f.devid = devid ∧ f.timestamp = timestamp :=
  mem_atTime.mp (mem_of_getLast? h)

theorem atTime_append (pushed : List (RaysunFrame O)) (msg : RaysunFrame O) (devid : ℤ)
    (timestamp : ℕ) :
    atTime (pushed ++ [msg]) devid timestamp = atTime pushed devid timestamp ++
      if msg.devid = devid ∧ msg.timestamp = timestamp then [msg] else [] := by
  simp [atTime, filter_append, filter_singleton]

variable {pushed' : List (RaysunFrame O)}

theorem SameTies.mem_iff (h : SameTies pushed pushed') (f : RaysunFrame O) :
    f ∈ pushed ↔ f ∈ pushed' := by
  have hf := congrArg (f ∈ ·) (h f.devid f.timestamp)
  simpa [mem_atTime] using hf

theorem SameTies.append (h : SameTies pushed pushed') (msg : RaysunFrame O) :
    SameTies (pushed ++ [msg]) (pushed' ++ [msg]) := by
  intro devid timestamp
  rw [atTime_append, atTime_append, h devid timestamp]

theorem SameTies.newest_iff (h : SameTies pushed pushed') (f : RaysunFrame O) :
    Newest pushed f ↔ Newest pushed' f := by
  constructor
  · rintro ⟨hlast, hgreatest⟩
    exact ⟨h _ _ ▸ hlast, fun g hg => hgreatest g ((h.mem_iff g).mpr hg)⟩
  · rintro ⟨hlast, hgreatest⟩
    exact ⟨(h _ _).symm ▸ hlast, fun g hg => hgreatest g ((h.mem_iff g).mp hg)⟩

/-! ## the cache -/

/-- The frames cached of a device. -/
def deviceBuff (buff : ExtTreeMap ℤ (ExtTreeMap ℕ (RaysunFrame O))) (devid : ℤ) :
    ExtTreeMap ℕ (RaysunFrame O) :=
  buff[devid]?.getD ∅

variable {buff : ExtTreeMap ℤ (ExtTreeMap ℕ (RaysunFrame O))}

theorem deviceBuff_of_mem_toList : ∀ dev ∈ buff.toList, deviceBuff buff dev.1 = dev.2 := by
  intro dev hdev
  rw [deviceBuff, ExtTreeMap.mem_toList_iff_getElem?_eq_some.mp hdev, getD_some]

/-- The cache after these frames were pushed. -/
structure Caches (pushed : List (RaysunFrame O))
    (buff : ExtTreeMap ℤ (ExtTreeMap ℕ (RaysunFrame O))) : Prop where
  devices : ∀ devid, devid ∈ buff ↔ ∃ f ∈ pushed, f.devid = devid
  last : ∀ devid timestamp f, (deviceBuff buff devid)[timestamp]? = some f →
    (atTime pushed devid timestamp).getLast? = some f
  newest : ∀ f ∈ pushed, ∃ timestamp ∈ deviceBuff buff f.devid, f.timestamp ≤ timestamp

theorem Caches.empty : Caches ([] : List (RaysunFrame O)) ∅ := by
  refine ⟨?_, ?_, ?_⟩ <;> simp [deviceBuff]

theorem pushBack_eq_insert (duration : ℕ) (buff : ExtTreeMap ℤ (ExtTreeMap ℕ (RaysunFrame O)))
    (msg : RaysunFrame O) :
    ∃ single, pushBack duration buff msg = buff.insert msg.devid single := by
  unfold pushBack
  exact ⟨_, rfl⟩

variable {msg : RaysunFrame O}

theorem mem_pushBack : devid ∈ pushBack duration buff msg ↔ devid = msg.devid ∨ devid ∈ buff := by
  obtain ⟨single, heq⟩ := pushBack_eq_insert duration buff msg
  rw [heq, ExtTreeMap.mem_insert, LawfulEqCmp.compare_eq_iff_eq, eq_comm]

/-- A pushed frame leaves the other devices alone. -/
theorem deviceBuff_pushBack_of_ne (h : devid ≠ msg.devid) :
    deviceBuff (pushBack duration buff msg) devid = deviceBuff buff devid := by
  obtain ⟨single, heq⟩ := pushBack_eq_insert duration buff msg
  rw [heq, deviceBuff, deviceBuff, ExtTreeMap.getElem?_insert, if_neg (by simpa using Ne.symm h)]

/-- The frames of the device with the pushed one, before old ones go. -/
def inserted (buff : ExtTreeMap ℤ (ExtTreeMap ℕ (RaysunFrame O))) (msg : RaysunFrame O) :
    ExtTreeMap ℕ (RaysunFrame O) :=
  (deviceBuff buff msg.devid).insert msg.timestamp msg

theorem deviceBuff_pushBack_self (duration : ℕ)
    (buff : ExtTreeMap ℤ (ExtTreeMap ℕ (RaysunFrame O))) (msg : RaysunFrame O) :
    deviceBuff (pushBack duration buff msg) msg.devid = inserted buff msg ∨
      deviceBuff (pushBack duration buff msg) msg.devid = (inserted buff msg).filter
        fun t _ => (inserted buff msg).maxKeyD msg.timestamp - duration ≤ t := by
  simp only [pushBack, deviceBuff, inserted, ExtTreeMap.getElem?_insert_self, getD_some]
  split_ifs
  · exact .inr rfl
  · exact .inl rfl

/-- What is cached of the device is the pushed frame or was cached before. -/
theorem getElem?_pushBack_self
    (h : (deviceBuff (pushBack duration buff msg) msg.devid)[timestamp]? = some f) :
    (timestamp = msg.timestamp ∧ f = msg) ∨
      (timestamp ≠ msg.timestamp ∧ (deviceBuff buff msg.devid)[timestamp]? = some f) := by
  refine getElem?_insert_eq_some.mp ?_
  change (inserted buff msg)[timestamp]? = some f
  obtain heq | heq := deviceBuff_pushBack_self duration buff msg
  · rwa [← heq]
  · rw [heq, ExtTreeMap.getElem?_filter', filter_eq_some_iff] at h
    exact h.1

/-- **No device loses its newest frame.** -/
theorem maxKeyD_mem_pushBack (buff : ExtTreeMap ℤ (ExtTreeMap ℕ (RaysunFrame O)))
    (msg : RaysunFrame O) :
    (inserted buff msg).maxKeyD msg.timestamp ∈
      deviceBuff (pushBack duration buff msg) msg.devid := by
  have hmem : (inserted buff msg).maxKeyD msg.timestamp ∈ inserted buff msg :=
    ExtTreeMap.maxKeyD_mem ExtTreeMap.insert_ne_empty
  obtain heq | heq := deviceBuff_pushBack_self duration buff msg
  · rwa [heq]
  · obtain ⟨f, hf⟩ := isSome_iff_exists.mp (ExtTreeMap.mem_iff_isSome_getElem?.mp hmem)
    rw [heq, ExtTreeMap.mem_iff_isSome_getElem?, ExtTreeMap.getElem?_filter', hf]
    simp [Option.filter]

/-- **One push.** -/
theorem Caches.pushBack (h : Caches pushed buff) (duration : ℕ) (msg : RaysunFrame O) :
    Caches (pushed ++ [msg]) (pushBack duration buff msg) := by
  refine ⟨fun devid => ?_, fun devid timestamp f hf => ?_, fun f hf => ?_⟩
  · rw [mem_pushBack, h.devices]
    simp [or_and_right, exists_or, or_comm, eq_comm]
  · rw [atTime_append]
    by_cases hdev : devid = msg.devid
    · subst hdev
      obtain ⟨rfl, rfl⟩ | ⟨hne, hold⟩ := getElem?_pushBack_self hf
      · simp
      · simpa [Ne.symm hne] using h.last _ _ _ hold
    · rw [deviceBuff_pushBack_of_ne hdev] at hf
      simpa [Ne.symm hdev] using h.last _ _ _ hf
  · by_cases hdev : f.devid = msg.devid
    · -- the newest frame of the device is at least as new
      have hin : ∃ timestamp ∈ inserted buff msg, f.timestamp ≤ timestamp := by
        rcases mem_append.mp hf with hf | hf
        · obtain ⟨timestamp, hmem, hle⟩ := h.newest f hf
          rw [hdev] at hmem
          exact ⟨timestamp, ExtTreeMap.mem_insert.mpr (.inr hmem), hle⟩
        · rw [mem_singleton] at hf
          exact ⟨msg.timestamp, ExtTreeMap.mem_insert_self, by rw [hf]⟩
      obtain ⟨timestamp, hmem, hle⟩ := hin
      rw [hdev]
      refine ⟨_, maxKeyD_mem_pushBack buff msg, hle.trans ?_⟩
      exact Nat.isLE_compare.mp (ExtTreeMap.le_maxKeyD_of_mem hmem)
    · rw [deviceBuff_pushBack_of_ne hdev]
      rcases mem_append.mp hf with hf | hf
      · exact h.newest f hf
      · rw [mem_singleton] at hf
        exact absurd (congrArg RaysunFrame.devid hf) hdev

/-! ## looking up -/

/-- The frame of a device that is found at a time when no later one was pushed. -/
theorem getNearestFrame_eq_some_iff (h : Caches pushed buff) {now : ℕ}
    (hnow : ∀ f ∈ pushed, f.timestamp ≤ now) :
    getNearestFrame (deviceBuff buff devid) now = some f ↔ f.devid = devid ∧ Newest pushed f := by
  have hkey : ∀ t ∈ deviceBuff buff devid, ∃ g ∈ pushed, g.devid = devid ∧ g.timestamp = t := by
    intro t ht
    obtain ⟨g, hg⟩ := isSome_iff_exists.mp (ExtTreeMap.mem_iff_isSome_getElem?.mp ht)
    exact ⟨g, mem_of_getLast?_atTime (h.last _ _ _ hg)⟩
  simp only [getNearestFrame, map_eq_some_iff, getEntryLE?_eq_some_iff, Nat.isLE_compare]
  constructor
  · rintro ⟨e, ⟨hget, -, hlast⟩, rfl⟩
    obtain ⟨-, rfl, htime⟩ := mem_of_getLast?_atTime (h.last _ _ _ hget)
    refine ⟨rfl, htime ▸ h.last _ _ _ hget, fun g hg hdev => ?_⟩
    obtain ⟨t, ht, hle⟩ := h.newest g hg
    rw [hdev] at ht
    obtain ⟨g', hg', -, rfl⟩ := hkey t ht
    rw [htime]
    exact hle.trans (hlast _ ht (hnow g' hg'))
  · rintro ⟨rfl, hlast, hgreatest⟩
    have hf := (mem_of_getLast?_atTime hlast).1
    obtain ⟨t, ht, hle⟩ := h.newest f hf
    obtain ⟨g, hg, hdev, rfl⟩ := hkey t ht
    have heq : f.timestamp = g.timestamp := hle.antisymm (hgreatest g hg hdev)
    obtain ⟨f', hf'⟩ := isSome_iff_exists.mp (ExtTreeMap.mem_iff_isSome_getElem?.mp ht)
    rw [← heq] at hf'
    have hsame := (h.last _ _ _ hf').symm.trans hlast
    refine ⟨(f.timestamp, f), ⟨by rw [hf', hsame], hnow f hf, fun t' ht' _ => ?_⟩, rfl⟩
    obtain ⟨g', hg', hdev', rfl⟩ := hkey t' ht'
    exact hgreatest g' hg' hdev'

/-- The frames that `GetSyncFrames` moves to the time of the frame. -/
def matchedFrames (buff : ExtTreeMap ℤ (ExtTreeMap ℕ (RaysunFrame O))) (frame : RaysunFrame O) :
    List (RaysunFrame O) :=
  buff.toList.filterMap fun dev => (getNearestFrame dev.2 frame.timestamp).filter fun matched =>
    (frame.timestamp - matched.timestamp : ℤ) < 1000

theorem getSyncFrames_eq (buff : ExtTreeMap ℤ (ExtTreeMap ℕ (RaysunFrame O)))
    (frame : RaysunFrame O) :
    getSyncFrames K buff frame = (matchedFrames buff frame).map fun matched =>
      propagateFrame K matched (frame.timestamp - matched.timestamp) := by
  rw [getSyncFrames, matchedFrames, map_filterMap]
  refine filterMap_congr fun dev _ => ?_
  cases getNearestFrame dev.2 frame.timestamp with
  | none => rfl
  | some matched =>
      by_cases h : (frame.timestamp - matched.timestamp : ℤ) < 1000 <;> simp [Option.filter, h]

section

variable {pushed : List (RaysunFrame O)} {buff : ExtTreeMap ℤ (ExtTreeMap ℕ (RaysunFrame O))}
  {frame : RaysunFrame O}

theorem mem_matchedFrames (h : Caches pushed buff)
    (hnow : ∀ f ∈ pushed, f.timestamp ≤ frame.timestamp) :
    f ∈ matchedFrames buff frame ↔
      Newest pushed f ∧ frame.timestamp < f.timestamp + 1000 := by
  have hrecent : ((frame.timestamp - f.timestamp : ℤ) < 1000) ↔
      frame.timestamp < f.timestamp + 1000 := by omega
  simp only [matchedFrames, mem_filterMap, filter_eq_some_iff, decide_eq_true_eq, hrecent]
  constructor
  · rintro ⟨dev, hdev, hfound, hlt⟩
    rw [← deviceBuff_of_mem_toList _ hdev, getNearestFrame_eq_some_iff h hnow] at hfound
    exact ⟨hfound.2, hlt⟩
  · rintro ⟨hnewest, hlt⟩
    have hmem : f.devid ∈ buff :=
      (h.devices _).mpr ⟨f, (mem_of_getLast?_atTime hnewest.last).1, rfl⟩
    obtain ⟨single, hget⟩ := isSome_iff_exists.mp
      (ExtTreeMap.mem_iff_isSome_getElem?.mp hmem)
    have hdev := ExtTreeMap.mem_toList_iff_getElem?_eq_some.mpr hget
    refine ⟨(f.devid, single), hdev, ?_, hlt⟩
    rw [← deviceBuff_of_mem_toList _ hdev, getNearestFrame_eq_some_iff h hnow]
    exact ⟨rfl, hnewest⟩

/-- One frame a device, in the order of the devices. -/
theorem pairwise_matchedFrames (h : Caches pushed buff)
    (hnow : ∀ f ∈ pushed, f.timestamp ≤ frame.timestamp) :
    (matchedFrames buff frame).Pairwise (fun f g => f.devid < g.devid) := by
  have hdevid : ∀ dev ∈ buff.toList, ∀ f, ((getNearestFrame dev.2 frame.timestamp).filter
      fun matched => (frame.timestamp - matched.timestamp : ℤ) < 1000) = some f →
      f.devid = dev.1 := by
    intro dev hdev f hf
    rw [filter_eq_some_iff, ← deviceBuff_of_mem_toList _ hdev,
      getNearestFrame_eq_some_iff h hnow] at hf
    exact hf.1.1
  refine pairwise_filterMap.mpr (buff.ordered_keys_toList.imp_of_mem ?_)
  intro dev dev' hdev hdev' hlt f hf f' hf'
  rw [hdevid dev hdev f hf, hdevid dev' hdev' f' hf']
  exact compare_lt_iff_lt.mp hlt

end

/-! ## runs -/

section

variable [Double F]

/-- A fuser into which these frames were pushed. -/
structure Fuser.Holds (pushed : List (RaysunFrame O)) (s : Fuser F M O) : Prop where
  caches : Caches pushed s.namedBuff
  time : ∀ now, s.currentTime ≤ now ↔ ∀ f ∈ pushed, f.timestamp ≤ now

theorem processOneFrame_eq_some {s s' : Fuser F M O} {n n' : ℤ} {frame : RaysunFrame O}
    (h : processOneFrame K duration s n frame = some (s', n')) :
    s'.namedBuff = pushBack duration s.namedBuff frame ∧
      s'.currentTime = max s.currentTime frame.timestamp := by
  simp only [processOneFrame] at h
  split_ifs at h with hlate heq
  · cases h
    exact ⟨rfl, (max_eq_left hlate).symm⟩
  · exact absurd heq.le hlate
  · obtain ⟨acc, -, heq⟩ := map_eq_some_iff.mp h
    cases heq
    exact ⟨rfl, (max_eq_right (le_of_not_ge hlate)).symm⟩

variable {pushed : List (RaysunFrame O)}

/-- **One frame.** -/
theorem Fuser.Holds.processOneFrame {s s' : Fuser F M O} {n n' : ℤ} {frame : RaysunFrame O}
    (hs : s.Holds pushed) (h : processOneFrame K duration s n frame = some (s', n')) :
    s'.Holds (pushed ++ [frame]) := by
  obtain ⟨hbuff, htime⟩ := processOneFrame_eq_some h
  refine ⟨hbuff ▸ hs.caches.pushBack _ frame, fun now => ?_⟩
  rw [htime, max_le_iff, hs.time]
  simp [or_imp, forall_and]

/-- The frames pushed into the fuser of one junction. -/
def framesOf (vid : String) (calls : List (String × RaysunFrame O)) : List (RaysunFrame O) :=
  (calls.filter fun call => call.1 = vid).map Prod.snd

variable {calls : List (String × RaysunFrame O)}

theorem onFrame_holds {s s' : Service F M O} {call : String × RaysunFrame O} {u : Unit}
    (h : onFrame K duration s call = some (s', u))
    (hs : ∀ vid, (s.fusers vid).Holds (framesOf vid calls)) (vid : String) :
    (s'.fusers vid).Holds (framesOf vid (calls ++ [call])) := by
  obtain ⟨vid', frame⟩ := call
  obtain ⟨⟨f', n'⟩, hframe, heq⟩ := map_eq_some_iff.mp h
  cases heq
  by_cases hvid : vid' = vid
  · subst hvid
    simpa [framesOf] using (hs vid').processOneFrame hframe
  · simpa [framesOf, hvid, Ne.symm hvid] using hs vid

/-- **Every run** leaves the fusers with the frames that were pushed into them. -/
theorem run_holds {s : Service F M O} {us : List Unit}
    (h : run (onFrame K duration) (Service.new F M O) calls = some (s, us)) (vid : String) :
    (s.fusers vid).Holds (framesOf vid calls) := by
  have hnew : ∀ vid, ((Service.new F M O).fusers vid).Holds (framesOf vid []) :=
    fun vid => ⟨Caches.empty, fun now => by simp [Service.new, Fuser.new, framesOf]⟩
  exact run_calls
    (I := fun (s : Service F M O) calls => ∀ vid, (s.fusers vid).Holds (framesOf vid calls))
    (fun s c s' r past hstep hs => onFrame_holds hstep hs) h hnew vid

/-! ## order of arrival -/

/-- A list in strict order of a key is known from its members. -/
theorem eq_of_pairwise_key {α : Type*} (key : α → ℤ) {l l' : List α}
    (hl : l.Pairwise fun a b => key a < key b) (hl' : l'.Pairwise fun a b => key a < key b)
    (hmem : ∀ a, a ∈ l ↔ a ∈ l') : l = l' :=
  List.Pairwise.eq_of_mem_iff (r := Order.Preimage key (· < ·)) hl hl' hmem

/-- A device whose frames were pushed in another order has its newest frame at the same time. -/
theorem Newest.of_perm (h : pushed.Perm pushed') (hf : Newest pushed f) :
    ∃ f', Newest pushed' f' ∧ f'.devid = f.devid ∧ f'.timestamp = f.timestamp := by
  have hmem : f ∈ atTime pushed' f.devid f.timestamp :=
    mem_atTime.mpr ⟨h.subset (mem_of_getLast?_atTime hf.last).1, rfl, rfl⟩
  obtain ⟨f', hf'⟩ := isSome_iff_exists.mp
    (getLast?_isSome.mpr (ne_nil_of_mem hmem))
  obtain ⟨-, hdev, htime⟩ := mem_of_getLast?_atTime hf'
  refine ⟨f', ⟨by rwa [hdev, htime], fun g hg hgdev => ?_⟩, hdev, htime⟩
  rw [htime]
  exact hf.greatest g (h.symm.subset hg) (hgdev.trans hdev)

/-- Frames chosen among the same frames in another order have the same devices and times. -/
theorem chosen_of_perm {chosen chosen' : List (RaysunFrame O)} {now : ℕ} (h : pushed.Perm pushed')
    (hchosen : ∀ f, f ∈ chosen ↔ Newest pushed f ∧ now < f.timestamp + 1000)
    (hchosen' : ∀ f, f ∈ chosen' ↔ Newest pushed' f ∧ now < f.timestamp + 1000) {p : ℤ × ℕ}
    (hp : p ∈ chosen.map fun f => (f.devid, f.timestamp)) :
    p ∈ chosen'.map fun f => (f.devid, f.timestamp) := by
  obtain ⟨f, hf, rfl⟩ := mem_map.mp hp
  obtain ⟨hnewest, hlt⟩ := (hchosen f).mp hf
  obtain ⟨f', hnewest', hdev, htime⟩ := hnewest.of_perm h
  refine mem_map.mpr ⟨f', (hchosen' f').mpr ⟨hnewest', htime ▸ hlt⟩, ?_⟩
  rw [hdev, htime]

/-- The frames with which an accepted frame is combined, before they are moved to its time. -/
def combined (duration : ℕ) (s : Service F M O) (vid : String) (frame : RaysunFrame O) :
    List (RaysunFrame O) :=
  matchedFrames (pushBack duration (s.fusers vid).namedBuff frame) frame

/-- **Synchronised frames**: an accepted frame is combined, for each device ever seen, with its
newest frame if that is newer than a second, each once, and what is evicted is never missed.
Devices and times do not depend on the order in which the earlier frames came, and no more do
the frames while those of one device with one timestamp keep theirs. -/
theorem getSyncFrames_newest {calls : List (String × RaysunFrame O)} {s : Service F M O}
    {us : List Unit}
    (hrun : run (onFrame K duration) (Service.new F M O) calls = some (s, us))
    {vid : String} {frame : RaysunFrame O} (hnew : (s.fusers vid).currentTime < frame.timestamp) :
    getSyncFrames K (pushBack duration (s.fusers vid).namedBuff frame) frame =
        (combined duration s vid frame).map (fun matched =>
          propagateFrame K matched (frame.timestamp - matched.timestamp)) ∧
      (combined duration s vid frame).Pairwise (fun f g => f.devid < g.devid) ∧
      (∀ f, f ∈ combined duration s vid frame ↔
        Newest (framesOf vid calls ++ [frame]) f ∧ frame.timestamp < f.timestamp + 1000) ∧
      ∀ calls' s' us',
        run (onFrame K duration) (Service.new F M O) calls' = some (s', us') →
        (framesOf vid calls').Perm (framesOf vid calls) →
        (s'.fusers vid).currentTime < frame.timestamp ∧
        (combined duration s' vid frame).map (fun f => (f.devid, f.timestamp)) =
          (combined duration s vid frame).map (fun f => (f.devid, f.timestamp)) ∧
        (SameTies (framesOf vid calls') (framesOf vid calls) →
          getSyncFrames K (pushBack duration (s'.fusers vid).namedBuff frame) frame =
            getSyncFrames K (pushBack duration (s.fusers vid).namedBuff frame) frame) := by
  have hs := run_holds hrun vid
  have hcaches := hs.caches.pushBack duration frame
  have hnow : ∀ f ∈ framesOf vid calls ++ [frame], f.timestamp ≤ frame.timestamp := by
    simpa [or_imp, forall_and] using (hs.time frame.timestamp).mp hnew.le
  have hmem := fun f => mem_matchedFrames hcaches hnow (f := f)
  have hsorted := pairwise_matchedFrames hcaches hnow
  refine ⟨getSyncFrames_eq _ _, hsorted, hmem, fun calls' s' us' hrun' hperm => ?_⟩
  have hs' := run_holds hrun' vid
  have hcaches' := hs'.caches.pushBack duration frame
  have htime : (s'.fusers vid).currentTime = (s.fusers vid).currentTime := by
    refine eq_of_forall_ge_iff fun now => ?_
    rw [hs.time, hs'.time]
    exact ⟨fun h f hf => h f (hperm.symm.subset hf), fun h f hf => h f (hperm.subset hf)⟩
  have hnow' : ∀ f ∈ framesOf vid calls' ++ [frame], f.timestamp ≤ frame.timestamp :=
    fun f hf => hnow f ((hperm.append_right [frame]).subset hf)
  have hmem' := fun f => mem_matchedFrames hcaches' hnow' (f := f)
  have hsorted' := pairwise_matchedFrames hcaches' hnow'
  refine ⟨htime ▸ hnew, ?_, fun hties => ?_⟩
  · have hperm' := hperm.append_right [frame]
    refine eq_of_pairwise_key Prod.fst (pairwise_map.mpr hsorted')
      (pairwise_map.mpr hsorted) fun p => ?_
    exact ⟨chosen_of_perm hperm' hmem' hmem, chosen_of_perm hperm'.symm hmem hmem'⟩
  · rw [getSyncFrames_eq, getSyncFrames_eq, eq_of_pairwise_key _ hsorted' hsorted fun f => ?_]
    rw [hmem, hmem', (hties.append frame).newest_iff]

/-! ## runs of one radar -/

/-- The same in terms that evaluate. -/
theorem pushBack_eq (buff : ExtTreeMap ℤ (ExtTreeMap ℕ (RaysunFrame O))) (msg : RaysunFrame O) :
    pushBack duration buff msg =
      let single := inserted buff msg
      let newest := single.keys.getLastD msg.timestamp
      let oldest := single.keys.headD msg.timestamp
      buff.insert msg.devid
        (if duration ≤ newest - oldest then single.filter fun t _ => newest - duration ≤ t
        else single) := by
  simp only [pushBack, inserted, deviceBuff, ExtTreeMap.maxKeyD_eq_getLastD_keys,
    ExtTreeMap.minKeyD_eq_headD_keys]
  rfl

/-- Kinematics where nothing moves and nothing is close. -/
def still : Kinematics Unit ℕ where
  init _ := ()
  predict _ _ := ()
  correct _ _ := ()
  close _ _ := false
  move o _ := o

/-- A frame with one target. -/
def oneTarget (devid : ℤ) (timestamp measured : ℕ) : RaysunFrame ℕ :=
  ⟨devid, timestamp, [⟨1, 0, measured⟩]⟩

/-- What was measured of the targets combined for a frame, if it is accepted after `calls`. -/
def synchronised (calls : List (String × RaysunFrame ℕ)) (frame : RaysunFrame ℕ) :
    Option (List ℕ) :=
  (run (onFrame still 1500) (Service.new ℚ Unit ℕ) calls).bind fun p =>
    if (p.1.fusers "j").currentTime < frame.timestamp then
      some ((getSyncFrames still (pushBack 1500 (p.1.fusers "j").namedBuff frame) frame).flatMap
        fun f => f.targets.map VehicleObs.measured)
    else none

omit [Double F] in
theorem run_of_synchronised {calls : List (String × RaysunFrame ℕ)} {frame : RaysunFrame ℕ}
    {measured : List ℕ} (h : synchronised calls frame = some measured) :
    ∃ s us, run (onFrame still 1500) (Service.new ℚ Unit ℕ) calls = some (s, us) ∧
      (s.fusers "j").currentTime < frame.timestamp ∧
      (getSyncFrames still (pushBack 1500 (s.fusers "j").namedBuff frame) frame).flatMap
        (fun f => f.targets.map VehicleObs.measured) = measured := by
  obtain ⟨⟨s, us⟩, hrun, h⟩ := bind_eq_some_iff.mp h
  split_ifs at h with hnew
  exact ⟨s, us, hrun, hnew, some_inj.mp h⟩

/-- The frames of a radar that came late, and one that is half a second old. -/
theorem getSyncFrames_newest_late :
    ∃ s us, run (onFrame still 1500) (Service.new ℚ Unit ℕ)
        [("j", oneTarget 1 12 7), ("j", oneTarget 1 10 8), ("j", oneTarget 1 11 5)] =
          some (s, us) ∧
      ∀ f, f ∈ combined 1500 s "j" (oneTarget 2 512 9) ↔
        Newest [oneTarget 1 12 7, oneTarget 1 10 8, oneTarget 1 11 5, oneTarget 2 512 9] f ∧
          512 < f.timestamp + 1000 := by
  have hrun : synchronised
      [("j", oneTarget 1 12 7), ("j", oneTarget 1 10 8), ("j", oneTarget 1 11 5)]
      (oneTarget 2 512 9) = some [7, 9] := by
    simp only [synchronised, run, onFrame, processOneFrame, pushBack_eq]
    decide +kernel
  obtain ⟨s, us, hrun, hnew, -⟩ := run_of_synchronised hrun
  exact ⟨s, us, hrun, (getSyncFrames_newest hrun hnew).2.2.1⟩

/-- A radar sends two frames with one timestamp: the one pushed last is combined. -/
theorem getSyncFrames_counterexample :
    ¬ ∀ (calls calls' : List (String × RaysunFrame ℕ)) (s s' : Service ℚ Unit ℕ)
      (us us' : List Unit) (vid : String) (frame : RaysunFrame ℕ),
      run (onFrame still 1500) (Service.new ℚ Unit ℕ) calls = some (s, us) →
      run (onFrame still 1500) (Service.new ℚ Unit ℕ) calls' = some (s', us') →
      (framesOf vid calls').Perm (framesOf vid calls) →
      (s.fusers vid).currentTime < frame.timestamp →
      getSyncFrames still (pushBack 1500 (s'.fusers vid).namedBuff frame) frame =
        getSyncFrames still (pushBack 1500 (s.fusers vid).namedBuff frame) frame := by
  intro hsame
  have hfirst : synchronised [("j", oneTarget 1 10 7), ("j", oneTarget 1 10 8)]
      (oneTarget 2 11 9) = some [8, 9] := by
    simp only [synchronised, run, onFrame, processOneFrame, pushBack_eq]
    decide +kernel
  have hsecond : synchronised [("j", oneTarget 1 10 8), ("j", oneTarget 1 10 7)]
      (oneTarget 2 11 9) = some [7, 9] := by
    simp only [synchronised, run, onFrame, processOneFrame, pushBack_eq]
    decide +kernel
  obtain ⟨s, us, hrun, hnew, hmeasured⟩ := run_of_synchronised hfirst
  obtain ⟨s', us', hrun', -, hmeasured'⟩ := run_of_synchronised hsecond
  have hperm : (framesOf "j" [("j", oneTarget 1 10 8), ("j", oneTarget 1 10 7)]).Perm
      (framesOf "j" [("j", oneTarget 1 10 7), ("j", oneTarget 1 10 8)]) := .swap _ _ _
  rw [hsame _ _ s s' us us' "j" _ hrun hrun' hperm hnew, hmeasured] at hmeasured'
  cases hmeasured'

end

end V2I.Fusion
