import V2I.Indexing.VehicleMgr
import V2I.Lib.Machine
import V2I.Lib.StdMap

/-!
# V2I.Indexing.Vehicles

The vehicles in runs, together with the subscriptions to their snapshots (`current-snapshot.cpp`):
`vehicles_in_step` says what holds in every state and what each call does there.
-/

namespace V2I.Indexing

open Option StdMap

/-! ## Subscriptions -/

/-- The subscriptions of `current_snapshot`: the counts of the vehicles that have an item. -/
abbrev Requests := StdMap Bytes ℤ

/-- The largest `int`. -/
def intMax : ℤ := 2147483647

/-- `add_request_item`. A count that leaves the `int`s has no result. -/
def addRequestItem (requests : Requests) (vid : Bytes) : Option Requests :=
  match requests.find vid with
  | some refcnt => if refcnt = intMax then none else some (requests.set vid (refcnt + 1))
  | none => some (requests.insert vid 1)

/-- `remove_request_item` -/
def removeRequestItem (requests : Requests) (vid : Bytes) : Requests :=
  match requests.find vid with
  | none => requests
  | some refcnt => if 0 < refcnt - 1 then requests.set vid (refcnt - 1) else requests.erase vid

namespace Vehicles

open VehicleMgr

/-- The vehicles and the subscriptions. -/
structure State where
  mgr : VehicleMgr
  requests : Requests

inductive Call where
  | add (vid acctoken : Bytes) (u : Uuid)
  | removeByUid (uid : Bytes)
  | removeByVid (vid : Bytes)
  | subscribe (vid : Bytes)
  | unsubscribe (vid : Bytes)

inductive Reply where
  | item (p : Option ℕ)
  | ret (ret : ℤ)
  | done
  deriving DecidableEq

def State.new : State := ⟨.new, .empty⟩

def step (s : State) : Call → Option (State × Reply)
  | .add vid acctoken u =>
      (s.mgr.addVehicle vid acctoken u).map fun r => ({ s with mgr := r.1 }, .item r.2)
  | .removeByUid uid =>
      some ({ s with mgr := (s.mgr.removeVehicleByUid uid).1 },
        .ret (s.mgr.removeVehicleByUid uid).2)
  | .removeByVid vid =>
      some ({ s with mgr := (s.mgr.removeVehicleByVid vid).1 },
        .ret (s.mgr.removeVehicleByVid vid).2)
  | .subscribe vid =>
      (addRequestItem s.requests vid).map fun requests => ({ s with requests }, .done)
  | .unsubscribe vid => some ({ s with requests := removeRequestItem s.requests vid }, .done)

/-! ## What the calls ask for -/

/-- How often a vehicle has been subscribed and unsubscribed since it was last absent; it is absent
again once the two are equal, and an unsubscription of an absent vehicle is a no-op. -/
def tally (vid : Bytes) (count : ℕ × ℕ) : Call → ℕ × ℕ
  | .subscribe v => if v = vid then (count.1 + 1, count.2) else count
  | .unsubscribe v =>
      if v ≠ vid then count
      else if count.2 + 1 < count.1 then (count.1, count.2 + 1) else (0, 0)
  | _ => count

def since (calls : List Call) (vid : Bytes) : ℕ × ℕ := calls.foldl (tally vid) (0, 0)

theorem since_append (calls : List Call) (c : Call) (vid : Bytes) :
    since (calls ++ [c]) vid = tally vid (since calls vid) c := by
  rw [since, List.foldl_append]
  rfl

/-- **Subscriptions**: after some calls a vehicle has an item exactly if they have subscribed it
more often than unsubscribed since it was last absent. -/
def Subscribed (s : State) (calls : List Call) : Prop :=
  ∀ vid, vid ∈ s.requests.keys ↔ (since calls vid).2 < (since calls vid).1

/-- An item counts the difference. -/
def Counted (refcnt : Option ℤ) (count : ℕ × ℕ) : Prop :=
  refcnt.elim (count = (0, 0)) fun refcnt => 0 < refcnt ∧ refcnt = count.1 - count.2

def Counts (s : State) (calls : List Call) : Prop :=
  ∀ vid, Counted (s.requests.find vid) (since calls vid)

theorem subscribed_of_counts {s : State} {calls : List Call} (h : Counts s calls) :
    Subscribed s calls := by
  intro vid
  have hvid := h vid
  cases hfind : s.requests.find vid with
  | none =>
      rw [hfind, Counted, elim_none] at hvid
      simp [hvid, find_eq_none_iff.mp hfind]
  | some refcnt =>
      rw [hfind, Counted, elim_some] at hvid
      have hmem : vid ∈ s.requests.keys := by
        by_contra hnot
        rw [find_eq_none_iff.mpr hnot] at hfind
        cases hfind
      refine iff_of_true hmem ?_
      omega

section Step

variable {s s' : State} {vid uid acctoken : Bytes} {u : Uuid} {calls : List Call}

theorem find_addRequestItem {requests requests' : Requests}
    (hadd : addRequestItem requests vid = some requests') (v : Bytes) :
    requests'.find v = if v = vid then some ((requests.find vid).getD 0 + 1)
      else requests.find v := by
  unfold addRequestItem at hadd
  cases hfind : requests.find vid with
  | none =>
      simp only [hfind, some.injEq] at hadd
      subst hadd
      split_ifs with hv
      · rw [hv, find_insert, hfind]
        simp
      · exact find_insert_of_ne hv 1
  | some refcnt =>
      simp only [hfind, ite_none_left_eq_some, some.injEq] at hadd
      obtain ⟨-, rfl⟩ := hadd
      rw [find_set, getD_some]

theorem find_removeRequestItem (requests : Requests) (vid v : Bytes) :
    (removeRequestItem requests vid).find v =
      if v = vid then (requests.find vid).bind fun refcnt =>
        if 0 < refcnt - 1 then some (refcnt - 1) else none
      else requests.find v := by
  unfold removeRequestItem
  cases hfind : requests.find vid with
  | none =>
      split_ifs with hv
      · rw [hv, hfind]
        rfl
      · rfl
  | some refcnt =>
      simp only [bind_some]
      split_ifs <;> simp_all [find_set, find_erase]

/-- A subscription counts up. -/
theorem Counts.subscribe (h : Counts s calls) {requests : Requests}
    (hadd : addRequestItem s.requests vid = some requests) :
    Counts { s with requests } (calls ++ [.subscribe vid]) := by
  intro v
  have hv := h v
  rw [since_append, find_addRequestItem hadd]
  simp only [tally]
  by_cases heq : v = vid
  · subst heq
    rw [if_pos rfl, if_pos rfl]
    cases hfind : s.requests.find v with
    | none =>
        rw [hfind, Counted, elim_none] at hv
        simp [Counted, hv]
    | some refcnt =>
        rw [hfind, Counted, elim_some] at hv
        rw [Counted, elim_some, getD_some]
        push_cast
        omega
  · rwa [if_neg heq, if_neg (Ne.symm heq)]

/-- An unsubscription counts down to nothing. -/
theorem Counts.unsubscribe (h : Counts s calls) (vid : Bytes) :
    Counts { s with requests := removeRequestItem s.requests vid }
      (calls ++ [.unsubscribe vid]) := by
  intro v
  have hv := h v
  rw [since_append, find_removeRequestItem]
  simp only [tally]
  by_cases heq : v = vid
  · subst heq
    rw [if_pos rfl, if_neg (not_not.mpr rfl)]
    cases hfind : s.requests.find v with
    | none =>
        rw [hfind, Counted, elim_none] at hv
        simp [Counted, hv]
    | some refcnt =>
        rw [hfind, Counted, elim_some] at hv
        rw [bind_some]
        split_ifs with hleft hcount
        · rw [Counted, elim_some]
          push_cast
          omega
        · omega
        · omega
        · rfl
  · rwa [if_neg heq, if_pos (Ne.symm heq)]

/-- An unsubscription of a vehicle that is absent does nothing. -/
theorem step_unsubscribe_absent (habsent : vid ∉ s.requests.keys) :
    step s (.unsubscribe vid) = some (s, .done) := by
  rw [step, removeRequestItem, find_eq_none_iff.mpr habsent]

/-- What a call does in a state of a run: an addition of a known vehicle returns its node and
leaves the keys and the trees as they are, that of an unknown vehicle with a fresh uid goes
through, a removal takes the one vehicle, and a subscription adds one for its vehicle. -/
def Does (s : State) : Call → Prop
  | .add vid acctoken u =>
      (∀ p, s.mgr.findVehicleVid vid = some p → ∃ m',
        step s (.add vid acctoken u) = some ({ s with mgr := m' }, .item (some p)) ∧
          m'.uidOf = s.mgr.uidOf ∧ m'.vidOf = s.mgr.vidOf ∧ m'.uidTree = s.mgr.uidTree ∧
            m'.vinTree = s.mgr.vinTree ∧ m'.vehicleList = s.mgr.vehicleList) ∧
      (s.mgr.findVehicleVid vid = none → (∀ p ∈ s.mgr.uidTree, s.mgr.uidOf p ≠ some u.toHex) →
        ∃ m' p, step s (.add vid acctoken u) = some ({ s with mgr := m' }, .item (some p)) ∧
          (∀ uid, m'.findVehicleUid uid =
            if uid = u.toHex then some p else s.mgr.findVehicleUid uid) ∧
          ∀ vid', m'.findVehicleVid vid' =
            if vid' = vid then some p else s.mgr.findVehicleVid vid')
  | .removeByUid uid => ∀ p, s.mgr.findVehicleUid uid = some p → ∃ m',
      step s (.removeByUid uid) = some ({ s with mgr := m' }, .ret 0) ∧ s.mgr.Removed p m'
  | .removeByVid vid => ∀ p, s.mgr.findVehicleVid vid = some p → ∃ m',
      step s (.removeByVid vid) = some ({ s with mgr := m' }, .ret 0) ∧ s.mgr.Removed p m'
  | .subscribe vid => s.requests.find vid ≠ some intMax → ∃ requests,
      step s (.subscribe vid) = some ({ s with requests }, .done) ∧ ∀ v, requests.find v =
        if v = vid then some ((s.requests.find vid).getD 0 + 1) else s.requests.find v
  | .unsubscribe vid => vid ∉ s.requests.keys → step s (.unsubscribe vid) = some (s, .done)

theorem addRequestItem_isSome (h : s.requests.find vid ≠ some intMax) :
    ∃ requests, addRequestItem s.requests vid = some requests := by
  unfold addRequestItem
  cases hfind : s.requests.find vid with
  | none => exact ⟨_, rfl⟩
  | some refcnt => exact ⟨_, if_neg fun heq => h (hfind.trans (congrArg some heq))⟩

theorem does_of_inStep (h : s.mgr.InStep) (c : Call) : Does s c := by
  cases c with
  | add vid acctoken u =>
      refine ⟨fun p hfind => ?_, fun hfind hfresh => ?_⟩
      · obtain ⟨huid, hvid⟩ := keys_setToken s.mgr p acctoken
        refine ⟨s.mgr.setToken p acctoken, ?_, huid, hvid, rfl, rfl, rfl⟩
        simp only [step, addVehicle, hfind, map_some]
      · rcases h.addVehicle_unknown hfind acctoken u with ⟨p, hp, hkey, -⟩ | ⟨-, heq⟩
        · exact absurd hkey (hfresh p hp)
        · obtain ⟨-, huid, hvid⟩ := h.insertNew hfind acctoken hfresh
          refine ⟨s.mgr.insertNew vid acctoken u, s.mgr.next, ?_, huid, hvid⟩
          simp only [step, heq, map_some]
  | removeByUid uid =>
      intro p hfind
      refine ⟨s.mgr.remove p, ?_, (h.remove (Index.find_mem hfind).1).2⟩
      simp only [step, removeVehicleByUid, hfind]
  | removeByVid vid =>
      intro p hfind
      have hmem := h.vinTree.mem_iff.mp (Index.find_mem hfind).1
      refine ⟨s.mgr.remove p, ?_, (h.remove hmem).2⟩
      simp only [step, removeVehicleByVid, hfind]
  | subscribe vid =>
      intro hmax
      obtain ⟨requests, hadd⟩ := addRequestItem_isSome hmax
      exact ⟨requests, by rw [step, hadd, map_some], find_addRequestItem hadd⟩
  | unsubscribe vid => exact step_unsubscribe_absent

/-- A call has no result only where a count leaves the `int`s. -/
theorem step_eq_none (h : s.mgr.InStep) {c : Call} (hstep : step s c = none) :
    ∃ vid, c = .subscribe vid ∧ s.requests.find vid = some intMax := by
  cases c with
  | add vid acctoken u =>
      have hnone := map_eq_none_iff.mp hstep
      cases hfind : s.mgr.findVehicleVid vid with
      | some p => simp [addVehicle, hfind] at hnone
      | none =>
          rcases h.addVehicle_unknown hfind acctoken u with ⟨p, -, -, heq⟩ | ⟨-, heq⟩ <;>
            cases hnone.symm.trans heq
  | removeByUid uid => cases hstep
  | removeByVid vid => cases hstep
  | unsubscribe vid => cases hstep
  | subscribe vid =>
      refine ⟨vid, rfl, ?_⟩
      by_contra hmax
      obtain ⟨requests, hadd⟩ := addRequestItem_isSome hmax
      cases hadd.symm.trans (map_eq_none_iff.mp hstep)

/-- **One step** keeps the trees and the list in step, and the counts. -/
theorem step_inStep (h : s.mgr.InStep) (hcounts : Counts s calls) {c : Call} {r : Reply}
    (hstep : step s c = some (s', r)) : s'.mgr.InStep ∧ Counts s' (calls ++ [c]) := by
  have hother : ∀ {c}, (∀ vid count, tally vid count c = count) → Counts s (calls ++ [c]) :=
    fun htally vid => by rw [since_append, htally]; exact hcounts vid
  cases c with
  | add vid acctoken u =>
      obtain ⟨⟨m', r⟩, hadd, heq⟩ := map_eq_some_iff.mp hstep
      cases heq
      refine ⟨?_, hother fun _ _ => rfl⟩
      cases hfind : s.mgr.findVehicleVid vid with
      | some p =>
          simp only [addVehicle, hfind, some.injEq, Prod.mk.injEq] at hadd
          obtain ⟨rfl, -⟩ := hadd
          exact h.setToken p acctoken
      | none =>
          rcases h.addVehicle_unknown hfind acctoken u with ⟨p, -, -, heq⟩ | ⟨hfresh, heq⟩
          · cases hadd.symm.trans heq
            exact h.deleteNew
          · cases hadd.symm.trans heq
            exact (h.insertNew hfind acctoken hfresh).1
  | removeByUid uid =>
      cases hstep
      refine ⟨?_, hother fun _ _ => rfl⟩
      unfold removeVehicleByUid
      cases hfind : s.mgr.findVehicleUid uid with
      | none => exact h
      | some p => exact (h.remove (Index.find_mem hfind).1).1
  | removeByVid vid =>
      cases hstep
      refine ⟨?_, hother fun _ _ => rfl⟩
      unfold removeVehicleByVid
      cases hfind : s.mgr.findVehicleVid vid with
      | none => exact h
      | some p => exact (h.remove (h.vinTree.mem_iff.mp (Index.find_mem hfind).1)).1
  | subscribe vid =>
      obtain ⟨requests, hadd, heq⟩ := map_eq_some_iff.mp hstep
      cases heq
      exact ⟨h, hcounts.subscribe hadd⟩
  | unsubscribe vid =>
      cases hstep
      exact ⟨h, hcounts.unsubscribe vid⟩

end Step

/-- **Runs**: the trees and the list stay in step, a vid's uid has that vid, each call does what
it is for and goes through, and the subscriptions are those that the calls have left. -/
theorem vehicles_in_step {calls : List Call} {s : State} {rs : List Reply}
    (h : Machine.run step .new calls = some (s, rs)) :
    s.mgr.InStep ∧
    (∀ vid p, s.mgr.findVehicleVid vid = some p →
      ∃ uid, s.mgr.uidOf p = some uid ∧ s.mgr.getVehicleId uid = (0, some vid)) ∧
    (∀ c, Does s c) ∧
    (∀ c, step s c = none → ∃ vid, c = .subscribe vid ∧ s.requests.find vid = some intMax) ∧
    Subscribed s calls := by
  have hnew : State.new.mgr.InStep ∧ Counts .new [] := ⟨inStep_new, fun _ => rfl⟩
  obtain ⟨hmgr, hcounts⟩ : s.mgr.InStep ∧ Counts s calls :=
    Machine.run_calls (I := fun s calls => s.mgr.InStep ∧ Counts s calls)
      (fun s c s' r past hstep hs => step_inStep hs.1 hs.2 hstep) h hnew
  exact ⟨hmgr, fun vid p => hmgr.getVehicleId_uid, does_of_inStep hmgr,
    fun c => step_eq_none hmgr, subscribed_of_counts hcounts⟩

/-- Two vehicles that register, of which one goes again, and a subscription. -/
def twoVehicles : List Call :=
  [.add [1] [7] ⟨1, 0, 0, fun _ => 0⟩, .add [2] [8] ⟨2, 0, 0, fun _ => 0⟩, .subscribe [1],
    .subscribe [1], .removeByVid [2], .unsubscribe [1], .add [1] [9] ⟨3, 0, 0, fun _ => 0⟩]

theorem vehicles_in_step_twoVehicles : ∃ s rs, Machine.run step .new twoVehicles = some (s, rs) ∧
    s.mgr.uidTree = [0] ∧ s.mgr.InStep ∧ Subscribed s twoVehicles := by
  obtain ⟨⟨s, rs⟩, hrun, hs⟩ := Machine.exists_of_any
    (show (Machine.run step .new twoVehicles).any (fun p => p.1.mgr.uidTree = [0]) = true by
      decide +kernel)
  have h := vehicles_in_step hrun
  exact ⟨s, rs, hrun, by simpa using hs, h.1, h.2.2.2.2⟩

end Vehicles

end V2I.Indexing
