import Mathlib.Algebra.BigOperators.Ring.List
import V2I.Lib.Lists
import V2I.MapCore.LaneTransitions

/-!
# V2I.MapCore.LaneTransitions.Forms

The two forms of `CalculateTransitionalProbability` against each other. On a list without
repetition the test for the same position is the test for the same lane, and the early exit
for an empty table gives what reading it would give; calls made before do not matter, since
no reading changes what another one gives (`calculateTransitionalProbability_agree`).
-/

namespace V2I.Hdmap

namespace HdmapImpl

/-- A row is divided by its sum, unless it has nothing to divide. -/
theorem normalizeRow_sum (row : List ℚ≥0) :
    (normalizeRow row).sum = 1 ∨ ∀ x ∈ normalizeRow row, x = 0 := by
  unfold normalizeRow
  split_ifs with hpos
  · left
    simp only [div_eq_mul_inv]
    rw [List.sum_map_mul_right, List.map_id']
    exact mul_inv_cancel₀ hpos.ne'
  · right
    intro x hx
    have hle : x ≤ row.sum := List.single_le_sum (fun _ _ => zero_le) x hx
    exact le_antisymm (hle.trans (not_lt.mp hpos)) zero_le

end HdmapImpl

namespace LscTransitions

/-- A call of one of the two forms. -/
inductive Call where
  | lanes (lanesId : List ℕ)
  | lanes2 (lanesId1 lanesId2 : List ℕ)
  deriving DecidableEq

/-- The table behind some calls. -/
def after (calls : List Call) (t : LscTransitions) : LscTransitions :=
  calls.foldl (fun t call =>
    match call with
    | .lanes l => (calculateTransitionalProbability l t).2
    | .lanes2 l1 l2 => (calculateTransitionalProbability2 l1 l2 t).2) t

theorem probability_after (calls : List Call) (t : LscTransitions) :
    probability (after calls t) = probability t := by
  induction calls generalizing t with
  | nil => rfl
  | cons call calls ih =>
      rw [after, List.foldl_cons]
      refine (ih _).trans ?_
      cases call with
      | lanes l => exact (calculateTransitionalProbability_spec l t).2
      | lanes2 l1 l2 => exact (calculateTransitionalProbability2_spec l1 l2 t).2

/-- On a list without repetition the one-list form has the values of the two-list form. -/
theorem forms_eq {l : List ℕ} (hl : l.Nodup) (t : LscTransitions) :
    (calculateTransitionalProbability l t).1 = (calculateTransitionalProbability2 l l t).1 := by
  rw [(calculateTransitionalProbability_spec l t).1,
    (calculateTransitionalProbability2_spec l l t).1]
  refine map_zipIdx_eq fun x hx => ?_
  rw [map_zipIdx_eq (g := fun b => if x.1 = b then 1 else probability t x.1 b) fun y hy => ?_]
  simp only [position_eq_iff hl hx hy]

/-- The values of the two-list form are those from the first call on. -/
theorem calculateTransitionalProbability2_after (calls : List Call) (l1 l2 : List ℕ)
    (t : LscTransitions) :
    (calculateTransitionalProbability2 l1 l2 (after calls t)).1 =
      (calculateTransitionalProbability2 l1 l2 t).1 := by
  rw [(calculateTransitionalProbability2_spec l1 l2 _).1,
    (calculateTransitionalProbability2_spec l1 l2 t).1, probability_after]

/-- **The two forms agree** on every list without repetition, whatever calls were made before
either of them, and every row of the two-list form sums to 1 or is 0. -/
theorem calculateTransitionalProbability_agree (t : LscTransitions) (before before' : List Call) :
    (∀ lanesId : List ℕ, lanesId.Nodup →
      (calculateTransitionalProbability lanesId (after before t)).1 =
        (calculateTransitionalProbability2 lanesId lanesId (after before' t)).1) ∧
    ∀ lanesId1 lanesId2, ∀ row ∈
        (calculateTransitionalProbability2 lanesId1 lanesId2 (after before t)).1,
      row.sum = 1 ∨ ∀ x ∈ row, x = 0 := by
  refine ⟨fun l hl => ?_, fun l1 l2 row hrow => ?_⟩
  · rw [forms_eq hl, calculateTransitionalProbability2_after,
      calculateTransitionalProbability2_after]
  · rw [(calculateTransitionalProbability2_spec l1 l2 _).1] at hrow
    obtain ⟨a, -, rfl⟩ := List.mem_map.mp hrow
    exact HdmapImpl.normalizeRow_sum _

/-- Lane 0 leads to lane 1 and has lane 2 on its right under the key 1. -/
def sampleTable : LscTransitions :=
  LscTransitions.generateLanesectTransition (.array [.object
    [("lanesec_index", .number 0 0),
      ("lsc_next_index", .array [.object [("next_index", .number 1 1)]]),
      ("lsc_right_index", .array [.object [("key", .number 1 1), ("value", .number 2 2)]])]]) .empty

theorem calculateTransitionalProbability_agree_sample :
    (calculateTransitionalProbability [0, 1, 2]
        (after [.lanes2 [2] [0], .lanes [1, 0]] sampleTable)).1 =
      (calculateTransitionalProbability2 [0, 1, 2] [0, 1, 2] (after [] sampleTable)).1 :=
  (calculateTransitionalProbability_agree sampleTable [.lanes2 [2] [0], .lanes [1, 0]] []).1
    [0, 1, 2] (by decide)

end LscTransitions

end V2I.Hdmap
