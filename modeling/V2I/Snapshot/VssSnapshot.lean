import Mathlib.Data.List.Count
import Mathlib.Logic.Function.Iterate

/-!
# V2I.Snapshot.VssSnapshot

The vehicles that the snapshot service sends to the center: the timer function
`vss_snapshot::kafuka_send_snapshot` of `snapshot.cpp`.

Its loop goes once round for every node of the list, but always takes the item at the head:
with `k` rounds the head is lowered `k` times and nothing else happens to the list
(`rounds_head`). So each item gets its turn just when there is at most one
(`kafukaSendSnapshot_iff`).
-/

namespace V2I.Snapshot

/-- `SNAPSHOT_SERVICE_TIMER_MIN_INTERVAL` -/
def timerMinInterval : ℕ := 10

/-- `VEHICLE_KAFKA_SEND_MIN_INTERVAL` -/
def vehicleKafkaSendMinInterval : ℕ := 100

/-- What the timer uses of a `vehicle_snapshot_item`. -/
structure VehicleSnapshotItem (S : Type) where
  vid : String
  index : ℕ
  update : Bool
  leftime : ℕ
  snapshot : List S
  deriving DecidableEq

/-- What happens to the item at a position of the list. -/
inductive SnapshotEvent (S : Type) where
  /-- its `leftime` is lowered -/
  | lower (position : ℕ)
  /-- its current snapshot goes to the center -/
  | send (position : ℕ) (snapshot : Option S)
  deriving DecidableEq

variable {S : Type}

namespace VehicleSnapshotItem

/-- The first lines of the loop body. -/
def lower (item : VehicleSnapshotItem S) : VehicleSnapshotItem S :=
  if timerMinInterval < item.leftime then
    { item with leftime := item.leftime - timerMinInterval }
  else { item with leftime := 0 }

/-- `send_vehicle_to_kafka`, as to the item. -/
def sendVehicleToKafka (item : VehicleSnapshotItem S) : VehicleSnapshotItem S :=
  { item with update := false, leftime := vehicleKafkaSendMinInterval }

/-- An item after its turn. -/
def turn (item : VehicleSnapshotItem S) : VehicleSnapshotItem S :=
  if item.update then item.lower.sendVehicleToKafka else item.lower

end VehicleSnapshotItem

/-- One round: `LIST_ENTRY` of the first node. -/
def kafukaRound (s : List (VehicleSnapshotItem S) × List (SnapshotEvent S)) :
    List (VehicleSnapshotItem S) × List (SnapshotEvent S) :=
  match s with
  | ([], events) => ([], events)
  | (item :: rest, events) =>
      let item := item.lower
      if item.update then
        (item.sendVehicleToKafka :: rest,
          events ++ [.lower 0, .send 0 item.snapshot[item.index]?])
      else (item :: rest, events ++ [.lower 0])

/-- `kafuka_send_snapshot()`: a round for every node of the list. -/
def kafukaSendSnapshot (items : List (VehicleSnapshotItem S)) :
    List (VehicleSnapshotItem S) × List (SnapshotEvent S) :=
  items.foldl (fun s _ => kafukaRound s) (items, [])

/-- Is the item at this position lowered? -/
def SnapshotEvent.isLower (i : ℕ) : SnapshotEvent S → Bool
  | lower position => position == i
  | send _ _ => false

/-- Is the item at this position sent? -/
def SnapshotEvent.isSend (i : ℕ) : SnapshotEvent S → Bool
  | lower _ => false
  | send position _ => position == i

/-- Every item is lowered once, sent once with its current snapshot if it was updated and not
at all otherwise, and no update flag stays. -/
def EachOnce (items : List (VehicleSnapshotItem S)) : Prop :=
  (∀ (i : ℕ) item, items[i]? = some item →
    (kafukaSendSnapshot items).2.countP (SnapshotEvent.isLower i) = 1 ∧
      (kafukaSendSnapshot items).2.countP (SnapshotEvent.isSend i) =
        (if item.update then 1 else 0) ∧
      ∀ snapshot, .send i snapshot ∈ (kafukaSendSnapshot items).2 →
        snapshot = item.snapshot[item.index]?) ∧
    ∀ item ∈ (kafukaSendSnapshot items).1, item.update = false

/-- The items are left as if each had its turn. -/
def LeftAsOnce (items : List (VehicleSnapshotItem S)) : Prop :=
  (kafukaSendSnapshot items).1 = items.map VehicleSnapshotItem.turn

/-! ## Rounds -/

namespace VehicleSnapshotItem

variable (item : VehicleSnapshotItem S)

theorem lower_eq : item.lower = { item with leftime := item.leftime - timerMinInterval } := by
  unfold lower
  split_ifs with h
  · rfl
  · rw [Nat.sub_eq_zero_of_le (Nat.not_lt.mp h)]

@[simp] theorem lower_update : item.lower.update = item.update := by
  rw [lower_eq]

end VehicleSnapshotItem

variable (items : List (VehicleSnapshotItem S))

theorem kafukaSendSnapshot_eq : kafukaSendSnapshot items = kafukaRound^[items.length] (items, []) :=
  List.foldl_const _ _ _

/-- Every event of a round is about the head. -/
theorem events_of_round (k : ℕ) (s : List (VehicleSnapshotItem S) × List (SnapshotEvent S))
    {i : ℕ} (hi : i ≠ 0) :
    (kafukaRound^[k] s).2.countP (SnapshotEvent.isLower i) =
      s.2.countP (SnapshotEvent.isLower i) := by
  induction k generalizing s with
  | zero => rfl
  | succ k ih =>
      rw [Function.iterate_succ_apply, ih]
      obtain ⟨items, events⟩ := s
      cases items with
      | nil => rfl
      | cons item rest =>
          rw [kafukaRound]
          split_ifs <;> simp [SnapshotEvent.isLower, Ne.symm hi]

variable {item : VehicleSnapshotItem S}

/-- **What the rounds do**: without an update the head is lowered in each of them. -/
theorem rounds_head (h : item.update = false) (rest : List (VehicleSnapshotItem S))
    (events : List (SnapshotEvent S)) (k : ℕ) :
    (kafukaRound^[k] (item :: rest, events)).1 =
      { item with leftime := item.leftime - timerMinInterval * k } :: rest := by
  induction k generalizing item events with
  | zero => rfl
  | succ k ih =>
      have hround : (kafukaRound (item :: rest, events)) =
          (item.lower :: rest, events ++ [.lower 0]) := by
        rw [kafukaRound, VehicleSnapshotItem.lower_update, h]
        rfl
      rw [Function.iterate_succ_apply, hround, ih (by rw [VehicleSnapshotItem.lower_update, h]),
        VehicleSnapshotItem.lower_eq, Nat.sub_sub, Nat.mul_succ, Nat.add_comm]

/-- With an update the head is sent in the first round and lowered in the others. -/
theorem rounds_head_update (h : item.update = true) (rest : List (VehicleSnapshotItem S))
    (events : List (SnapshotEvent S)) (k : ℕ) :
    (kafukaRound^[k + 1] (item :: rest, events)).1 =
      { item with
        update := false
        leftime := vehicleKafkaSendMinInterval - timerMinInterval * k } :: rest := by
  have hround : (kafukaRound (item :: rest, events)) =
      (item.lower.sendVehicleToKafka :: rest,
        events ++ [.lower 0, .send 0 item.lower.snapshot[item.lower.index]?]) := by
    rw [kafukaRound]
    simp only [VehicleSnapshotItem.lower_update, h, if_true]
  rw [Function.iterate_succ_apply, hround, rounds_head rfl, VehicleSnapshotItem.lower_eq]
  rfl

/-! ## When every item gets its turn -/

theorem eachOnce_iff : EachOnce items ↔ items.length ≤ 1 := by
  constructor
  · rintro ⟨hturns, -⟩
    by_contra hlen
    have h1 : 1 < items.length := Nat.not_le.mp hlen
    obtain ⟨hlower, -⟩ := hturns 1 items[1] (List.getElem?_eq_getElem h1)
    rw [kafukaSendSnapshot_eq, events_of_round _ _ Nat.one_ne_zero] at hlower
    cases hlower
  · intro hlen
    match items, hlen with
    | [], _ => exact ⟨by simp, by simp [kafukaSendSnapshot]⟩
    | [item], _ =>
        refine ⟨fun i item' hi => ?_, ?_⟩
        · obtain ⟨hlt, rfl⟩ := List.getElem?_eq_some_iff.mp hi
          obtain rfl : i = 0 := by simpa using hlt
          cases hu : item.update <;>
            simp [kafukaSendSnapshot, kafukaRound, SnapshotEvent.isLower, SnapshotEvent.isSend, hu,
              VehicleSnapshotItem.lower_eq]
        · cases hu : item.update <;>
            simp [kafukaSendSnapshot, kafukaRound, VehicleSnapshotItem.sendVehicleToKafka, hu]

/-- An item that its turn leaves alone. -/
theorem turn_eq_self_iff : item.turn = item ↔ item.update = false ∧ item.leftime = 0 := by
  obtain ⟨vid, index, update, leftime, snapshot⟩ := item
  cases update with
  | true => simp [VehicleSnapshotItem.turn, VehicleSnapshotItem.sendVehicleToKafka]
  | false =>
      simp [VehicleSnapshotItem.turn, VehicleSnapshotItem.lower_eq, timerMinInterval]
      omega

theorem map_turn_eq_self_iff {items : List (VehicleSnapshotItem S)} :
    items.map VehicleSnapshotItem.turn = items ↔
      ∀ item ∈ items, item.update = false ∧ item.leftime = 0 := by
  induction items with
  | nil => simp
  | cons item items ih =>
      rw [List.map_cons, List.cons.injEq, turn_eq_self_iff, ih, List.forall_mem_cons]

/-- A head without an update is left as after one turn when it has nothing more to lose. -/
theorem lowered_eq_turn_iff (h : item.update = false) (k : ℕ) :
    { item with leftime := item.leftime - timerMinInterval * (k + 1) } = item.turn ↔
      k = 0 ∨ item.leftime ≤ timerMinInterval := by
  obtain ⟨vid, index, update, leftime, snapshot⟩ := item
  obtain rfl : update = false := h
  simp only [VehicleSnapshotItem.turn, VehicleSnapshotItem.lower_eq, timerMinInterval]
  simp
  omega

/-- A head with an update is only left as after one turn when there was just one. -/
theorem sent_eq_turn_iff (h : item.update = true) (k : ℕ) :
    { item with
      update := false
      leftime := vehicleKafkaSendMinInterval - timerMinInterval * k } = item.turn ↔ k = 0 := by
  obtain ⟨vid, index, update, leftime, snapshot⟩ := item
  obtain rfl : update = true := h
  simp only [VehicleSnapshotItem.turn, VehicleSnapshotItem.lower_eq,
    VehicleSnapshotItem.sendVehicleToKafka, timerMinInterval, vehicleKafkaSendMinInterval]
  simp
  omega

theorem leftAsOnce_iff :
    LeftAsOnce items ↔ items.length ≤ 1 ∨
      ∃ head rest, items = head :: rest ∧ head.update = false ∧ head.leftime ≤ timerMinInterval ∧
        ∀ item ∈ rest, item.update = false ∧ item.leftime = 0 := by
  rw [LeftAsOnce, kafukaSendSnapshot_eq]
  cases items with
  | nil => simp
  | cons head rest =>
      have hlen : (head :: rest).length ≤ 1 ↔ rest = [] := by
        cases rest <;> simp
      have hrest : rest = rest.map VehicleSnapshotItem.turn ↔
          ∀ item ∈ rest, item.update = false ∧ item.leftime = 0 :=
        eq_comm.trans map_turn_eq_self_iff
      rw [hlen, List.length_cons, List.map_cons]
      cases hu : head.update with
      | false =>
          rw [rounds_head hu, List.cons.injEq, lowered_eq_turn_iff hu, hrest,
            List.length_eq_zero_iff]
          constructor
          · rintro ⟨hnil | hle, hturn⟩
            · exact Or.inl hnil
            · exact Or.inr ⟨head, rest, rfl, hu, hle, hturn⟩
          · rintro (rfl | ⟨head', rest', heq, -, hle, hturn⟩)
            · exact ⟨Or.inl rfl, by simp⟩
            · obtain ⟨rfl, rfl⟩ := List.cons.inj heq
              exact ⟨Or.inr hle, hturn⟩
      | true =>
          rw [rounds_head_update hu, List.cons.injEq, sent_eq_turn_iff hu, hrest,
            List.length_eq_zero_iff]
          constructor
          · rintro ⟨hnil, -⟩
            exact Or.inl hnil
          · rintro (rfl | ⟨head', rest', heq, hu', -⟩)
            · exact ⟨rfl, by simp⟩
            · obtain ⟨rfl, rfl⟩ := List.cons.inj heq
              rw [hu] at hu'
              cases hu'

/-- **When the timer does its work**: each item gets its turn once just when there is at most
one; and a longer list is only left as if each had its turn when no item was updated, all but
the head were down to zero and the head gets there in one turn. -/
theorem kafukaSendSnapshot_iff (items : List (VehicleSnapshotItem S)) :
    (EachOnce items ↔ items.length ≤ 1) ∧
      (LeftAsOnce items ↔ items.length ≤ 1 ∨
        ∃ head rest, items = head :: rest ∧ head.update = false ∧
          head.leftime ≤ timerMinInterval ∧
          ∀ item ∈ rest, item.update = false ∧ item.leftime = 0) :=
  ⟨eachOnce_iff items, leftAsOnce_iff items⟩

/-- With two updated vehicles the second one is neither lowered nor sent. -/
theorem kafukaSendSnapshot_counterexample :
    ¬ EachOnce [(⟨"a", 0, true, 100, ["p"]⟩ : VehicleSnapshotItem String),
      ⟨"b", 0, true, 100, ["q"]⟩] := by
  rintro ⟨-, hupdate⟩
  exact absurd (hupdate ⟨"b", 0, true, 100, ["q"]⟩ (by decide)) (by decide)

end V2I.Snapshot
