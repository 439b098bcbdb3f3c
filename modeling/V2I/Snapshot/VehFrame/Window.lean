import Mathlib.Algebra.Ring.Int.Defs
import V2I.Lib.Lists
import V2I.Snapshot.VehFrame

/-!
# V2I.Snapshot.VehFrame.Window

Which snapshot of a vehicle a frame gets. It should be the newest one of the 100 ms up to
`endtime` (`TrackedVehicle.expected`). The ring walk compares so, but it leaves out the
newest slot, which the code tests beforehand by other comparisons: `timestamp < endtime - 100`
keeps the instant `endtime - 100` itself, `timestamp < endtime` drops the instant `endtime`.
Below 100 the difference `endtime - 100` wraps around.
-/

namespace V2I.VehFrame

open List Option

variable {F : Type} [Zero F]

/-- A vehicle whose ring holds the snapshots `history`, newest first. -/
structure TrackedVehicle (F : Type) [Zero F] where
  item : VehicleSnapshotItem F
  newest : VehicleSnapshot F
  older : List (VehicleSnapshot F)
  stores : Stores item (newest :: older)
  vincode : ∀ s ∈ newest :: older, s.vincode = item.vid
  sorted : (newest :: older).Pairwise fun s s' => s'.package.timestamp ≤ s.package.timestamp

/-- Does a time stamp lie in the 100 ms up to `endtime`? -/
def Recent (timestamp endtime : UInt64) : Prop :=
  (endtime.toNat : ℤ) - 100 < timestamp.toNat ∧ timestamp.toNat ≤ endtime.toNat

instance (timestamp endtime : UInt64) : Decidable (Recent timestamp endtime) :=
  inferInstanceAs (Decidable (_ ∧ _))

namespace TrackedVehicle

/-- The record that a frame should hold of a vehicle: its newest recent snapshot. -/
def expected (v : TrackedVehicle F) (endtime : UInt64) : Option (VehicleInfo F) :=
  ((v.newest :: v.older).find? fun s => Recent s.package.timestamp endtime).map
    VehicleSnapshot.vehicleInfo

/-- When the code finds the expected record. From 100 on the newest snapshot must not lie
at the start of the window, and at its end only when the one before it gives the same
record; below 100 no snapshot may lie in the window. -/
def Fits (v : TrackedVehicle F) (endtime : UInt64) : Prop :=
  if endtime < 100 then ∀ s ∈ v.newest :: v.older, endtime < s.package.timestamp
  else v.newest.package.timestamp ≠ endtime - 100 ∧
    (v.newest.package.timestamp = endtime →
      v.older.head?.map VehicleSnapshot.vehicleInfo = some v.newest.vehicleInfo)

end TrackedVehicle

/-! ## The ring walk -/

/-- Walking back from `k` steps behind the newest slot. -/
theorem Stores.walkRing_eq {item : VehicleSnapshotItem F} {history : List (VehicleSnapshot F)}
    (h : Stores item history) (endtime : UInt64) {k fuel : ℕ} (hk : 0 < k)
    (hfuel : k + fuel = vehicleSnapshotHistoryMax + 1) :
    walkRing item endtime fuel
        ((item.index + vehicleSnapshotHistoryMax - k) % vehicleSnapshotHistoryMax) =
      (((range' k (fuel - 1)).map fun k => history[k]?.getD .clear).find? fun s =>
        inWindow s.package.timestamp endtime).map VehicleSnapshot.vehicleInfo := by
  have hidx := h.index_lt
  rw [vehicleSnapshotHistoryMax] at hidx hfuel
  induction fuel generalizing k with
  | zero => rfl
  | succ fuel ih =>
      rw [walkRing]
      cases fuel with
      | zero =>
          -- twenty steps back is the newest slot again
          have hback : (item.index + vehicleSnapshotHistoryMax - k) % vehicleSnapshotHistoryMax =
              item.index := by
            rw [vehicleSnapshotHistoryMax]
            omega
          rw [if_pos hback]
          rfl
      | succ fuel =>
          have hne : (item.index + vehicleSnapshotHistoryMax - k) % vehicleSnapshotHistoryMax ≠
              item.index := by
            rw [vehicleSnapshotHistoryMax]
            omega
          have hnext : ((item.index + vehicleSnapshotHistoryMax - k) % vehicleSnapshotHistoryMax +
              vehicleSnapshotHistoryMax - 1) % vehicleSnapshotHistoryMax =
                (item.index + vehicleSnapshotHistoryMax - (k + 1)) % vehicleSnapshotHistoryMax := by
            rw [vehicleSnapshotHistoryMax]
            omega
          have hslot := h.slot k (by rw [vehicleSnapshotHistoryMax]; omega)
          rw [if_neg hne, hnext, ih (Nat.succ_pos k) (by omega), hslot]
          simp only [Nat.add_sub_cancel]
          rw [range'_succ, map_cons, find?_cons]
          cases inWindow (history[k]?.getD .clear).package.timestamp endtime <;> rfl

/-! ## The comparisons -/

theorem timestamp_clear : (VehicleSnapshot.clear : VehicleSnapshot F).package.timestamp = 0 := by
  have hzero : ((0 : Int64) * 1000 + 0 / 1000).toUInt64 = 0 := by decide
  exact hzero

theorem toNat_sub_hundred (endtime : UInt64) :
    (endtime - 100).toNat =
      if endtime < 100 then endtime.toNat + (2 ^ 64 - 100) else endtime.toNat - 100 := by
  have h100 : (100 : UInt64).toNat = 100 := rfl
  have hlt := endtime.toNat_lt
  split <;> rename_i h <;> rw [UInt64.lt_iff_toNat_lt, h100] at h <;>
    rw [UInt64.toNat_sub, h100] <;> omega

theorem inWindow_zero (endtime : UInt64) : inWindow 0 endtime = false := by
  simp [inWindow, UInt64.lt_iff_toNat_lt]

theorem inWindow_eq {timestamp endtime : UInt64} (h : ¬ endtime < 100) :
    inWindow timestamp endtime = decide (Recent timestamp endtime) := by
  have hsub := toNat_sub_hundred endtime
  rw [if_neg h] at hsub
  have h100 : (100 : UInt64).toNat = 100 := rfl
  rw [UInt64.lt_iff_toNat_lt, h100] at h
  rw [Bool.eq_iff_iff, decide_eq_true_iff, inWindow, Bool.and_eq_true, decide_eq_true_iff,
    decide_eq_true_iff, UInt64.le_iff_toNat_le, UInt64.lt_iff_toNat_lt, hsub, Recent]
  omega

theorem inWindow_of_lt_hundred {timestamp endtime : UInt64} (h : endtime < 100) :
    inWindow timestamp endtime = false := by
  have hsub := toNat_sub_hundred endtime
  rw [if_pos h] at hsub
  have hlt := timestamp.toNat_lt
  have h100 : (100 : UInt64).toNat = 100 := rfl
  rw [UInt64.lt_iff_toNat_lt, h100] at h
  rw [inWindow, Bool.and_eq_false_iff, decide_eq_false_iff_not, decide_eq_false_iff_not,
    UInt64.le_iff_toNat_le, UInt64.lt_iff_toNat_lt, hsub]
  omega

/-! ## One vehicle -/

namespace TrackedVehicle

variable (v : TrackedVehicle F) (endtime : UInt64)

theorem map_slots :
    ((range' 1 (vehicleSnapshotHistoryMax - 1)).map fun k =>
        (v.newest :: v.older)[k]?.getD .clear) =
      v.older ++ List.replicate (vehicleSnapshotHistoryMax - 1 - v.older.length) .clear := by
  have hlen : v.older.length ≤ vehicleSnapshotHistoryMax - 1 :=
    Nat.le_sub_one_of_lt v.stores.length_le
  refine ext_getElem (by simp; omega) fun k hk _ => ?_
  rw [getElem_map, getElem_range', getElem_append]
  by_cases hold : k < v.older.length
  · have hget : (v.newest :: v.older)[1 + 1 * k]? = some v.older[k] := by
      rw [Nat.one_mul, Nat.add_comm, getElem?_cons_succ, getElem?_eq_getElem hold]
    rw [dif_pos hold, hget, getD_some]
  · have hget : (v.newest :: v.older)[1 + 1 * k]? = none := by
      rw [Nat.one_mul, Nat.add_comm, getElem?_cons_succ, getElem?_eq_none (by omega)]
    rw [dif_neg hold, hget, getD_none, getElem_replicate]

/-- What the code adds for a vehicle. -/
theorem vehFrame_eq : vehFrame v.item endtime =
    if v.newest.package.timestamp < endtime - 100 then none
    else if v.newest.package.timestamp < endtime then some v.newest.vehicleInfo
    else (v.older.find? fun s => inWindow s.package.timestamp endtime).map
      VehicleSnapshot.vehicleInfo := by
  have hidx := v.stores.index_lt
  have hnewest : v.item.snapshot v.item.index = v.newest := by
    have hslot := v.stores.slot 0 (by decide)
    rwa [Nat.sub_zero, Nat.add_mod_right, Nat.mod_eq_of_lt hidx] at hslot
  have hwalk := v.stores.walkRing_eq endtime Nat.one_pos
    (Nat.add_comm 1 vehicleSnapshotHistoryMax)
  rw [map_slots, find?_append, find?_replicate, timestamp_clear, inWindow_zero] at hwalk
  rw [vehFrame, if_neg (Nat.not_le.mpr hidx), hnewest, hwalk]
  simp

theorem vehicleInfo_id {r : VehicleInfo F} (h : vehFrame v.item endtime = some r) :
    r.id = v.item.vid := by
  rw [vehFrame_eq] at h
  split at h
  · cases h
  split at h
  · cases h
    exact v.vincode v.newest mem_cons_self
  · obtain ⟨s, hs, rfl⟩ := map_eq_some_iff.mp h
    exact v.vincode s (mem_cons_of_mem _ (mem_of_find?_eq_some hs))

theorem older_le {s : VehicleSnapshot F} (hs : s ∈ v.older) :
    s.package.timestamp.toNat ≤ v.newest.package.timestamp.toNat :=
  UInt64.le_iff_toNat_le.mp ((pairwise_cons.mp v.sorted).1 s hs)

/-- Nothing is recent when the newest snapshot comes before the window. -/
theorem find_older_eq_none (h : ∀ s ∈ v.older, ¬ Recent s.package.timestamp endtime) :
    (v.older.find? fun s => Recent s.package.timestamp endtime) = none :=
  find?_eq_none.mpr fun s hs => by simpa using h s hs

theorem expected_of_recent (h : Recent v.newest.package.timestamp endtime) :
    v.expected endtime = some v.newest.vehicleInfo := by
  rw [expected, find?_cons_of_pos (by simpa using h)]
  rfl

theorem expected_of_not_recent (h : ¬ Recent v.newest.package.timestamp endtime) :
    v.expected endtime = (v.older.find? fun s => Recent s.package.timestamp endtime).map
      VehicleSnapshot.vehicleInfo := by
  rw [expected, find?_cons_of_neg (by simpa using h)]

/-- With a snapshot at `endtime` itself the code takes the one before it. -/
theorem find_older_eq_newest_iff (hnew : v.newest.package.timestamp = endtime) :
    (v.older.find? fun s => Recent s.package.timestamp endtime).map VehicleSnapshot.vehicleInfo =
        some v.newest.vehicleInfo ↔
      v.older.head?.map VehicleSnapshot.vehicleInfo = some v.newest.vehicleInfo := by
  have hle := fun s hs => v.older_le (s := s) hs
  cases hold : v.older with
  | nil => rfl
  | cons s l =>
      rw [hold] at hle
      by_cases hs : Recent s.package.timestamp endtime
      · rw [find?_cons_of_pos (by simpa using hs), head?_cons]
      · -- the one before the newest is too old, and so are all others
        have hsort := (pairwise_cons.mp v.sorted).2
        rw [hold] at hsort
        have hnone : ((s :: l).find? fun s => Recent s.package.timestamp endtime) = none := by
          rw [← hold]
          refine v.find_older_eq_none endtime fun s' hs' hr => hs ?_
          rw [hold] at hs'
          have hle' : s'.package.timestamp.toNat ≤ s.package.timestamp.toNat := by
            cases mem_cons.mp hs' with
            | inl heq => exact heq ▸ Nat.le_refl _
            | inr hmem => exact UInt64.le_iff_toNat_le.mp ((pairwise_cons.mp hsort).1 s' hmem)
          have hup := hle s mem_cons_self
          rw [hnew] at hup
          exact ⟨by have := hr.1; omega, hup⟩
        have hne : s.vehicleInfo ≠ v.newest.vehicleInfo := by
          intro heq
          have hts : s.package.timestamp = endtime :=
            (congrArg VehicleInfo.timestamp heq).trans hnew
          exact hs ⟨by rw [hts]; omega, hts ▸ Nat.le_refl _⟩
        rw [hnone, head?_cons]
        simp [hne]

/-- Below 100 the code finds nothing. -/
theorem vehFrame_of_lt_hundred (hlow : endtime < 100) : vehFrame v.item endtime = none := by
  have hsub := toNat_sub_hundred endtime
  rw [if_pos hlow] at hsub
  have hfind : (v.older.find? fun s => inWindow s.package.timestamp endtime) = none :=
    find?_eq_none.mpr fun s _ => by rw [inWindow_of_lt_hundred hlow]; exact Bool.false_ne_true
  rw [vehFrame_eq, hfind]
  by_cases hbefore : v.newest.package.timestamp < endtime - 100
  · rw [if_pos hbefore]
  · rw [if_neg hbefore, if_neg, map_none]
    rw [UInt64.lt_iff_toNat_lt, hsub] at hbefore
    rw [UInt64.lt_iff_toNat_lt]
    omega

theorem expected_eq_none_iff_of_lt_hundred (hlow : endtime < 100) :
    v.expected endtime = none ↔ ∀ s ∈ v.newest :: v.older, endtime < s.package.timestamp := by
  have h100 : (100 : UInt64).toNat = 100 := rfl
  rw [UInt64.lt_iff_toNat_lt, h100] at hlow
  rw [expected, map_eq_none_iff, find?_eq_none]
  refine forall₂_congr fun s _ => ?_
  rw [decide_eq_true_iff, Recent, UInt64.lt_iff_toNat_lt]
  omega

/-- From 100 on the newest snapshot decides which comparison is made. -/
theorem vehFrame_eq_expected_iff_of_le (hhigh : ¬ endtime < 100) :
    vehFrame v.item endtime = v.expected endtime ↔
      v.newest.package.timestamp ≠ endtime - 100 ∧
        (v.newest.package.timestamp = endtime →
          v.older.head?.map VehicleSnapshot.vehicleInfo = some v.newest.vehicleInfo) := by
  have hsub := toNat_sub_hundred endtime
  rw [if_neg hhigh] at hsub
  have hend : 100 ≤ endtime.toNat := by
    have h100 : (100 : UInt64).toNat = 100 := rfl
    rwa [UInt64.lt_iff_toNat_lt, h100, Nat.not_lt] at hhigh
  have hwalk : (v.older.find? fun s => inWindow s.package.timestamp endtime) =
      v.older.find? fun s => Recent s.package.timestamp endtime := by
    simp only [inWindow_eq hhigh]
  rw [vehFrame_eq, hwalk]
  simp only [UInt64.lt_iff_toNat_lt, ne_eq, ← UInt64.toNat_inj, hsub]
  have hold := fun s hs => v.older_le (s := s) hs
  rcases Nat.lt_trichotomy v.newest.package.timestamp.toNat (endtime.toNat - 100) with
    hbefore | hstart | hafter
  · -- nothing is recent
    have hnew : ¬ Recent v.newest.package.timestamp endtime := fun hr => by have := hr.1; omega
    rw [if_pos hbefore, v.expected_of_not_recent endtime hnew, v.find_older_eq_none]
    · exact iff_of_true rfl ⟨by omega, fun heq => absurd heq (by omega)⟩
    · intro s hs hr
      have h1 := hr.1
      have h2 := hold s hs
      omega
  · -- the newest one at the start of the window is not recent, but the code takes it
    have hnew : ¬ Recent v.newest.package.timestamp endtime := fun hr => by have := hr.1; omega
    rw [if_neg (by omega), if_pos (by omega), v.expected_of_not_recent endtime hnew,
      v.find_older_eq_none]
    · exact iff_of_false nofun fun h => h.1 hstart
    · intro s hs hr
      have h1 := hr.1
      have h2 := hold s hs
      omega
  · rw [if_neg (by omega)]
    rcases Nat.lt_trichotomy v.newest.package.timestamp.toNat endtime.toNat with
      hin | hlast | hlater
    · rw [if_pos hin, v.expected_of_recent endtime ⟨by omega, by omega⟩]
      exact iff_of_true rfl ⟨by omega, fun heq => absurd heq (by omega)⟩
    · rw [if_neg (by omega), v.expected_of_recent endtime ⟨by omega, by omega⟩,
        v.find_older_eq_newest_iff endtime (UInt64.toNat_inj.mp hlast)]
      exact ⟨fun h => ⟨by omega, fun _ => h⟩, fun h => h.2 hlast⟩
    · have hnew : ¬ Recent v.newest.package.timestamp endtime := fun hr => by
        have := hr.2
        omega
      rw [if_neg (by omega), v.expected_of_not_recent endtime hnew]
      exact iff_of_true rfl ⟨by omega, fun heq => absurd heq (by omega)⟩

/-- The code finds the expected record of a vehicle exactly when it fits. -/
theorem vehFrame_eq_expected_iff :
    vehFrame v.item endtime = v.expected endtime ↔ v.Fits endtime := by
  rw [Fits]
  split
  · rename_i hlow
    rw [v.vehFrame_of_lt_hundred endtime hlow, eq_comm,
      v.expected_eq_none_iff_of_lt_hundred endtime hlow]
  · rename_i hhigh
    exact v.vehFrame_eq_expected_iff_of_le endtime hhigh

end TrackedVehicle

/-! ## The frame of a junction -/

/-- The frame of `vehicles` adds to the package the expected record of each of them, and no
other one. -/
def AddsExpected (vehicles : List (TrackedVehicle F)) (endtime : UInt64)
    (pkg pkg' : List (VehicleInfo F)) : Prop :=
  ∃ added, pkg' = pkg ++ added ∧
    (∀ v ∈ vehicles,
      (added.filter fun r => r.id = v.item.vid) = (v.expected endtime).toList) ∧
    ∀ r ∈ added, ∃ v ∈ vehicles, r.id = v.item.vid

/-- A frame holds for every vehicle of the junction its newest snapshot of the 100 ms up to
`endtime`, exactly when each vehicle fits. -/
theorem generateVehFrame_iff_fits (veh vehPrev : List (TrackedVehicle F))
    (hnodup : ((veh ++ vehPrev).map fun v => v.item.vid).Nodup) (pkg : List (VehicleInfo F))
    (endtime : UInt64) (hpos : 0 < endtime) :
    AddsExpected (veh ++ vehPrev) endtime pkg
        (generateVehFrame ⟨veh.map TrackedVehicle.item, vehPrev.map TrackedVehicle.item⟩ pkg
          endtime) ↔
      ∀ v ∈ veh ++ vehPrev, v.Fits endtime := by
  have hne : endtime ≠ 0 := by
    rintro rfl
    exact absurd hpos (by decide)
  have hadded : generateVehFrame ⟨veh.map TrackedVehicle.item, vehPrev.map TrackedVehicle.item⟩
      pkg endtime = pkg ++ (veh ++ vehPrev).filterMap fun v => vehFrame v.item endtime := by
    rw [generateVehFrame, if_neg hne, filterMap_append, filterMap_map, filterMap_map, append_assoc]
    rfl
  have hfilter : ∀ v ∈ veh ++ vehPrev,
      (((veh ++ vehPrev).filterMap fun v => vehFrame v.item endtime).filter fun r =>
        r.id = v.item.vid) = (vehFrame v.item endtime).toList :=
    fun v hv => filter_filterMap (fun a _ b h => a.vehicleInfo_id endtime h) hnodup hv
  rw [hadded]
  constructor
  · rintro ⟨added, heq, hexp, -⟩ v hv
    have hcode := hfilter v hv
    rw [append_cancel_left heq, hexp v hv] at hcode
    refine (v.vehFrame_eq_expected_iff endtime).mp ?_
    have hhead := congrArg List.head? hcode
    rwa [head?_toList, head?_toList, eq_comm] at hhead
  · intro hfits
    refine ⟨_, rfl, fun v hv => ?_, fun r hr => ?_⟩
    · rw [hfilter v hv, (v.vehFrame_eq_expected_iff endtime).mpr (hfits v hv)]
    · obtain ⟨v, hv, hr⟩ := mem_filterMap.mp hr
      exact ⟨v, hv, v.vehicleInfo_id endtime hr⟩

/-- A vehicle that sent one snapshot, at 1000 ms. -/
def oneSnapshot : TrackedVehicle ℤ where
  item := updateSnapshot "v" none ⟨1, 0, ⟨0, 0, 0⟩, 0⟩
  newest := ⟨"v", 1, 0, ⟨0, 0, 0⟩, 0⟩
  older := []
  stores := stores_updateSnapshot_none "v" ⟨1, 0, ⟨0, 0, 0⟩, 0⟩
  vincode := forall_mem_singleton.mpr rfl
  sorted := pairwise_singleton ..

/-- A vehicle whose second snapshot came at 1100 ms. -/
def twoSnapshots : TrackedVehicle ℤ where
  item := updateSnapshot "v" (some oneSnapshot.item) ⟨1, 100000, ⟨5, 0, 0⟩, 0⟩
  newest := ⟨"v", 1, 100000, ⟨5, 0, 0⟩, 0⟩
  older := [oneSnapshot.newest]
  stores := stores_updateSnapshot_some oneSnapshot.stores "v" ⟨1, 100000, ⟨5, 0, 0⟩, 0⟩
  vincode := by simp [oneSnapshot, updateSnapshot, nextSlot]
  sorted := by decide

/-- At 1050 ms it is there with its first one. -/
theorem generateVehFrame_iff_fits_twoSnapshots :
    AddsExpected ([twoSnapshots] ++ []) 1050 []
        (generateVehFrame ⟨[twoSnapshots].map TrackedVehicle.item, [].map TrackedVehicle.item⟩ []
          1050) ∧
      twoSnapshots.expected 1050 = some oneSnapshot.newest.vehicleInfo :=
  ⟨(generateVehFrame_iff_fits [twoSnapshots] [] (by simp) [] 1050 (by decide)).mpr
    (forall_mem_singleton.mpr ⟨by decide, fun h => absurd h (by decide)⟩), by decide⟩

/-- A snapshot taken exactly at `endtime` is lost. -/
theorem not_addsExpected_at_endtime :
    ¬ AddsExpected [oneSnapshot] 1000 [] (generateVehFrame ⟨[oneSnapshot.item], []⟩ [] 1000) := by
  rintro ⟨added, hadded, hexp, -⟩
  have hnone : generateVehFrame ⟨[oneSnapshot.item], []⟩ [] 1000 = [] := by decide
  rw [hnone, nil_append] at hadded
  have hone := hexp oneSnapshot mem_cons_self
  rw [← hadded] at hone
  exact absurd hone (by decide)

end V2I.VehFrame
