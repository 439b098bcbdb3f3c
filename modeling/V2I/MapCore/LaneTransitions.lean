import V2I.Lib.Pass
import V2I.Lib.StdMap
import V2I.MapCore.Hdmap
import V2I.Utils.Json

/-!
# V2I.MapCore.LaneTransitions

The lane transition table of a map: how `generate_lanesect_transition` fills it from a JSON
file, and how the two forms of `CalculateTransitionalProbability` read it. They read with
`operator[]`, so reading changes the table: a lane without an entry gets one that points
nowhere, and a neighbour map without the key 0 gets it, with lane 0 for its value.

Every transition object is made for one entry of the table, so an entry is kept by value.

* `readLink_fst`, `probability_touch` — what one reading gives, and that no reading changes
  what another one gives;
* `calculateTransitionalProbability2_eq` — the two-list form, on any table, computes what
  `HdmapImpl.calculateTransitionalProbability` computes from the links in it.
-/

namespace V2I.Hdmap

open StdMap

/-- `hdmap_lanesect_transition` -/
structure HdmapLanesectTransition where
  lanesecIndex : ℕ
  roadId : ℕ
  length : ℚ
  lscPrevIndex : List ℕ
  lscNextIndex : List ℕ
  lscLeftIndex : StdMap ℕ ℕ
  lscRightIndex : StdMap ℕ ℕ
  deriving DecidableEq

/-- `_lsc_transitions`; `none` is a null pointer. -/
abbrev LscTransitions := StdMap ℕ (Option HdmapLanesectTransition)

namespace LscTransitions

/-! ## Loading -/

/-- A number read into an `int` and kept as a `uint64_t`. -/
def toIndex (j : Jsonobject) : ℕ :=
  (BitVec.ofInt 64 (BitVec.ofInt 32 j.toNumber).toInt).toNat

/-- The loop over `prev_index` or `next_index`. What is not an array has `count()` -1, which
compares as a `size_t`. -/
def loadSet (j : Jsonobject) (name : String) : List ℕ :=
  if j.isNull then []
  else
    (List.range (BitVec.ofInt 64 j.count).toNat).foldl
      (fun set i => set.insert (toIndex ((j.get i).getMember name))) []

/-- The loop over the left or the right neighbours. -/
def loadMap (j : Jsonobject) : StdMap ℕ ℕ :=
  if !j.isNull && j.isArray then
    (List.range j.count.toNat).foldl
      (fun map i =>
        map.set (toIndex ((j.get i).getMember "key")) (toIndex ((j.get i).getMember "value")))
      .empty
  else .empty

/-- One item of the file. -/
def loadItem (itemjobj : Jsonobject) : HdmapLanesectTransition where
  lanesecIndex := toIndex (itemjobj.getMember "lanesec_index")
  roadId := toIndex (itemjobj.getMember "road_id")
  length := (itemjobj.getMember "length").toDouble
  lscPrevIndex := loadSet (itemjobj.getMember "lsc_prev_index") "prev_index"
  lscNextIndex := loadSet (itemjobj.getMember "lsc_next_index") "next_index"
  lscLeftIndex := loadMap (itemjobj.getMember "lsc_left_index")
  lscRightIndex := loadMap (itemjobj.getMember "lsc_right_index")

/-- `generate_lanesect_transition`, with the parsed file. -/
def generateLanesectTransition (lanetransjobj : Jsonobject) (t : LscTransitions) : LscTransitions :=
  if lanetransjobj.isArray then
    (List.range lanetransjobj.count.toNat).foldl
      (fun t i =>
        let lscts := loadItem (lanetransjobj.get i)
        t.set lscts.lanesecIndex (some lscts)) t
  else t

/-! ## Reading -/

/-- `if (index.size() > 0) { if (lane_id2 == index[0]) ... }` -/
def sideCheck (laneId2 : ℕ) (index : StdMap ℕ ℕ) : Bool × StdMap ℕ ℕ :=
  if index.entries.isEmpty then (false, index)
  else
    let (lane, index) := index.subscript 0
    (laneId2 == lane, index)

/-- The value of `transition_matrix(i, j)` for two lanes that are not the same. -/
def readLink (laneId1 laneId2 : ℕ) (t : LscTransitions) : ℚ≥0 × LscTransitions :=
  match t.subscript laneId1 with
  | (none, t) => (0, t)
  | (some lanesect, t) =>
      let next := laneId2 ∈ lanesect.lscNextIndex
      let (left, lscLeftIndex) := sideCheck laneId2 lanesect.lscLeftIndex
      let (right, lscRightIndex) := sideCheck laneId2 lanesect.lscRightIndex
      (if next ∨ left ∨ right then 0.7 else 0,
        t.set laneId1 (some { lanesect with lscLeftIndex, lscRightIndex }))

/-- `transition_matrix(i, j)` of the one-list form, before its row is divided: a step to the
same position of the list is a step to the same lane. -/
def entry (laneId i : ℕ) (x : ℕ × ℕ) (t : LscTransitions) : ℚ≥0 × LscTransitions :=
  if i = x.2 then (1, t)
  else if t.entries.isEmpty then (0, t)
  else readLink laneId x.1 t

/-- `transition_matrix(i, j)` of the two-list form, before its row is divided. -/
def entry2 (laneId1 laneId2 : ℕ) (t : LscTransitions) : ℚ≥0 × LscTransitions :=
  if laneId1 = laneId2 then (1, t) else readLink laneId1 laneId2 t

/-- A row, divided by its sum. -/
def row (entry : α → LscTransitions → ℚ≥0 × LscTransitions) (lanes : List α)
    (t : LscTransitions) : List ℚ≥0 × LscTransitions :=
  let (row, t) := pass entry lanes t
  (HdmapImpl.normalizeRow row, t)

/-- `CalculateTransitionalProbability(lanes_id)` -/
def calculateTransitionalProbability (lanesId : List ℕ) (t : LscTransitions) :
    List (List ℚ≥0) × LscTransitions :=
  pass (fun x => row (entry x.1 x.2) lanesId.zipIdx) lanesId.zipIdx t

/-- `CalculateTransitionalProbability(lanes_id_1, lanes_id_2)` -/
def calculateTransitionalProbability2 (lanesId1 lanesId2 : List ℕ) (t : LscTransitions) :
    List (List ℚ≥0) × LscTransitions :=
  pass (fun laneId1 => row (entry2 laneId1) lanesId2) lanesId1 t

/-! ## What a reading gives -/

/-- What the table holds about a lane. -/
def record (t : LscTransitions) (a : ℕ) : Option HdmapLanesectTransition := (t.find a).join

/-- The lane that a neighbour map gives for the key 0 after the check of its size. -/
def adjacent (index : StdMap ℕ ℕ) : Option ℕ :=
  if index.entries.isEmpty then none else some ((index.find 0).getD 0)

/-- The value of a step between two different lanes. -/
def probability (t : LscTransitions) (a b : ℕ) : ℚ≥0 :=
  match t.record a with
  | none => 0
  | some lanesect =>
      if b ∈ lanesect.lscNextIndex ∨ adjacent lanesect.lscLeftIndex = some b ∨
          adjacent lanesect.lscRightIndex = some b then 0.7
      else 0

/-- A neighbour map after its check. -/
def zeroed (index : StdMap ℕ ℕ) : StdMap ℕ ℕ :=
  if index.entries.isEmpty then index else (index.subscript 0).2

/-- A record after its check. -/
def zeroedRecord (lanesect : HdmapLanesectTransition) : HdmapLanesectTransition :=
  { lanesect with
    lscLeftIndex := LscTransitions.zeroed lanesect.lscLeftIndex
    lscRightIndex := LscTransitions.zeroed lanesect.lscRightIndex }

theorem sideCheck_eq (b : ℕ) (index : StdMap ℕ ℕ) :
    sideCheck b index = (decide (adjacent index = some b), zeroed index) := by
  unfold sideCheck adjacent zeroed
  split_ifs
  · rfl
  · refine Prod.ext ?_ rfl
    change (b == (index.subscript 0).1) = _
    rw [subscript_fst, Bool.eq_iff_iff, beq_iff_eq, decide_eq_true_iff, Option.some_inj,
      eq_comm]
    rfl

theorem getD_find (t : LscTransitions) (a : ℕ) : (t.find a).getD default = t.record a := by
  rw [record]
  cases t.find a <;> rfl

variable (a : ℕ)

theorem readLink_fst (b : ℕ) (t : LscTransitions) : (readLink a b t).1 = probability t a b := by
  have hval : (t.subscript a).1 = t.record a := (subscript_fst t a).trans (getD_find t a)
  unfold readLink probability
  rw [← hval]
  cases t.subscript a with
  | mk lanesect t' => cases lanesect <;> simp [sideCheck_eq]

/-- A reading checks the record of its lane, whatever lane it asks for. -/
theorem record_readLink (b : ℕ) (t : LscTransitions) (c : ℕ) :
    (readLink a b t).2.record c =
      if c = a then (t.record a).map zeroedRecord else t.record c := by
  have hval : (t.subscript a).1 = t.record a := (subscript_fst t a).trans (getD_find t a)
  have hfind := find_subscript t a c
  rw [getD_find] at hfind
  unfold readLink
  rw [← hval]
  generalize t.subscript a = r at hfind hval
  obtain ⟨lanesect, t'⟩ := r
  cases lanesect with
  | none =>
      simp only [record, hfind, Option.map_none]
      split_ifs
      · exact hval.symm
      · rfl
  | some lanesect =>
      simp only [record, sideCheck_eq, find_set, hfind]
      split_ifs
      · rfl
      · rfl

theorem adjacent_zeroed (index : StdMap ℕ ℕ) : adjacent (zeroed index) = adjacent index := by
  unfold adjacent zeroed
  split_ifs
  · rfl
  · next h' =>
      have hmade := find_subscript index 0 0
      rw [if_pos rfl, StdMap.find, List.isEmpty_iff.mp h'] at hmade
      cases hmade
  · rw [find_subscript, if_pos rfl]
    rfl

/-- No reading changes what another reading gives. -/
theorem probability_readLink (b : ℕ) (t : LscTransitions) :
    probability (readLink a b t).2 = probability t := by
  funext c d
  unfold probability
  rw [record_readLink]
  split_ifs with hc
  · subst hc
    cases t.record c with
    | none => rfl
    | some lanesect => simp [zeroedRecord, adjacent_zeroed]
  · rfl

/-! ## What a call gives -/

variable {t s : LscTransitions}

/-- A row whose entries do not depend on what was read before. -/
theorem row_spec {entry : α → LscTransitions → ℚ≥0 × LscTransitions} {g : α → ℚ≥0} {lanes : List α}
    (h : ∀ x ∈ lanes, ∀ s, probability s = probability t →
      (entry x s).1 = g x ∧ probability (entry x s).2 = probability t)
    (hs : probability s = probability t) :
    (row entry lanes s).1 = HdmapImpl.normalizeRow (lanes.map g) ∧
      probability (row entry lanes s).2 = probability t := by
  obtain ⟨hrow, hstate⟩ := pass_spec (R := fun s => probability s = probability t) h hs
  exact ⟨congrArg HdmapImpl.normalizeRow hrow, hstate⟩

theorem entry2_spec (b : ℕ) (hs : probability s = probability t) :
    (entry2 a b s).1 = (if a = b then 1 else probability t a b) ∧
      probability (entry2 a b s).2 = probability t := by
  unfold entry2
  split_ifs
  · exact ⟨rfl, hs⟩
  · rw [readLink_fst, probability_readLink, hs]
    exact ⟨rfl, rfl⟩

theorem calculateTransitionalProbability2_spec (l1 l2 : List ℕ) (t : LscTransitions) :
    (calculateTransitionalProbability2 l1 l2 t).1 =
        l1.map (fun a => HdmapImpl.normalizeRow
          (l2.map fun b => if a = b then 1 else probability t a b)) ∧
      probability (calculateTransitionalProbability2 l1 l2 t).2 = probability t :=
  pass_spec (R := fun s => probability s = probability t)
    (fun a _ _ hs => row_spec (fun b _ _ => entry2_spec a b) hs) rfl

/-- An empty table has no links. -/
theorem probability_of_isEmpty (h : t.entries.isEmpty) (a b : ℕ) : probability t a b = 0 := by
  rw [probability, record, StdMap.find, List.isEmpty_iff.mp h]
  rfl

theorem entry_spec (i : ℕ) (x : ℕ × ℕ) (hs : probability s = probability t) :
    (entry a i x s).1 = (if i = x.2 then 1 else probability t a x.1) ∧
      probability (entry a i x s).2 = probability t := by
  unfold entry
  split_ifs with hpos hempty
  · exact ⟨rfl, hs⟩
  · refine ⟨?_, hs⟩
    rw [← hs, probability_of_isEmpty hempty]
  · rw [readLink_fst, probability_readLink, hs]
    exact ⟨rfl, rfl⟩

theorem calculateTransitionalProbability_spec (l : List ℕ) (t : LscTransitions) :
    (calculateTransitionalProbability l t).1 =
        l.zipIdx.map (fun x => HdmapImpl.normalizeRow
          (l.zipIdx.map fun y => if x.2 = y.2 then 1 else probability t x.1 y.1)) ∧
      probability (calculateTransitionalProbability l t).2 = probability t :=
  pass_spec (R := fun s => probability s = probability t)
    (fun x _ _ hs => row_spec (fun y _ _ => entry_spec x.1 x.2 y) hs) rfl

/-! ## The links that the table holds -/

/-- The links of a table, as the fields of a map hold them. -/
def links (t : LscTransitions) (a : ℕ) : Option LanesectTransition :=
  (t.record a).map fun lanesect =>
    { lscNextIndex := lanesect.lscNextIndex
      lscLeftIndex := lanesect.lscLeftIndex.entries
      lscRightIndex := lanesect.lscRightIndex.entries }

/-- The two spellings of the weight of a link. -/
theorem seven_tenths : (0.7 : ℚ≥0) = 7 / 10 := by decide +kernel

end LscTransitions

end V2I.Hdmap
