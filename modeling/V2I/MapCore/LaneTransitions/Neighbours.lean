import V2I.MapCore.LaneTransitions

/-!
# V2I.MapCore.LaneTransitions.Neighbours

Whether the two-list form of `CalculateTransitionalProbability` follows the neighbours that
the table records. It asks a neighbour map for the key 0 once the map is not empty. Where
the key is missing, that makes an entry for it with lane 0, which then counts as a neighbour;
and neighbours under other keys are not seen. `meetsRecord_iff` is the exact condition.
-/

namespace V2I.Hdmap.LscTransitions

open List Option

/-- Lane `b` is a value of the neighbour map, under any key. -/
def HasNeighbour (index : StdMap ℕ ℕ) (b : ℕ) : Prop := ∃ key, index.find key = some b

/-- The table records `b` as a next lane, a left or a right neighbour of `a`. -/
def Recorded (t : LscTransitions) (a b : ℕ) : Prop :=
  ∃ lanesect, t.record a = some lanesect ∧
    (b ∈ lanesect.lscNextIndex ∨ HasNeighbour lanesect.lscLeftIndex b ∨
      HasNeighbour lanesect.lscRightIndex b)

/-- The entries for different lanes are those of the recorded links, and the call leaves what
the table records of every lane. -/
def MeetsRecord (t : LscTransitions) (l1 l2 : List ℕ) : Prop :=
  (∀ (i j a b : ℕ), l1[i]? = some a → l2[j]? = some b → a ≠ b →
    ∃ row x, (calculateTransitionalProbability2 l1 l2 t).1[i]? = some row ∧ row[j]? = some x ∧
      (x ≠ 0 ↔ Recorded t a b)) ∧
    ∀ c, (calculateTransitionalProbability2 l1 l2 t).2.record c = t.record c

/-- A neighbour map is empty or has the key 0. -/
def ZeroKeyed (index : StdMap ℕ ℕ) : Prop := index.entries ≠ [] → 0 ∈ index.keys

/-- The neighbour maps of a record can be asked for the key 0, and if they hold `b` at all
then it is a next lane or stands under the key 0. -/
def Adjacent (lanesect : HdmapLanesectTransition) (b : ℕ) : Prop :=
  ZeroKeyed lanesect.lscLeftIndex ∧ ZeroKeyed lanesect.lscRightIndex ∧
    (HasNeighbour lanesect.lscLeftIndex b ∨ HasNeighbour lanesect.lscRightIndex b →
      b ∈ lanesect.lscNextIndex ∨ lanesect.lscLeftIndex.find 0 = some b ∨
        lanesect.lscRightIndex.find 0 = some b)

/-! ## The records behind a call -/

variable {index : StdMap ℕ ℕ}

theorem zeroed_of_zeroKeyed (h : ZeroKeyed index) : zeroed index = index := by
  unfold zeroed
  split_ifs with hempty
  · rfl
  · exact StdMap.subscript_of_mem (h fun hnil => hempty (isEmpty_iff.mpr hnil))

theorem zeroKeyed_zeroed (index : StdMap ℕ ℕ) : ZeroKeyed (zeroed index) := by
  unfold zeroed
  split_ifs with hempty
  · exact fun hne => absurd (isEmpty_iff.mp hempty) hne
  · intro _
    by_contra hnot
    have hmade := StdMap.find_subscript index 0 0
    rw [if_pos rfl, StdMap.find_eq_none_iff.mpr hnot] at hmade
    cases hmade

/-- A record whose neighbour maps can be asked for the key 0. -/
def RecordKeyed (t : LscTransitions) (a : ℕ) : Prop :=
  ∀ lanesect, t.record a = some lanesect →
    ZeroKeyed lanesect.lscLeftIndex ∧ ZeroKeyed lanesect.lscRightIndex

theorem recordKeyed_readLink (a b : ℕ) (t : LscTransitions) : RecordKeyed (readLink a b t).2 a := by
  intro lanesect h
  rw [record_readLink, if_pos rfl] at h
  obtain ⟨before, -, rfl⟩ := map_eq_some_iff.mp h
  exact ⟨zeroKeyed_zeroed _, zeroKeyed_zeroed _⟩

theorem recordKeyed_readLink_of {c : ℕ} (h : RecordKeyed t c) (a b : ℕ) :
    RecordKeyed (readLink a b t).2 c := by
  by_cases hc : c = a
  · subst hc
    exact recordKeyed_readLink c b t
  · intro lanesect hrec
    rw [record_readLink, if_neg hc] at hrec
    exact h lanesect hrec

theorem record_readLink_of (h : RecordKeyed t a) (b c : ℕ) :
    (readLink a b t).2.record c = t.record c := by
  rw [record_readLink]
  split_ifs with hc
  · subst hc
    cases hrec : t.record c with
    | none => rfl
    | some lanesect =>
        obtain ⟨hleft, hright⟩ := h lanesect hrec
        simp only [map_some, zeroedRecord, zeroed_of_zeroKeyed hleft, zeroed_of_zeroKeyed hright]
  · rfl

variable {l1 l2 : List ℕ} {a b : ℕ}

/-- Behind a call every lane that was looked up has its key 0. -/
theorem recordKeyed_call (ha : a ∈ l1) (hb : b ∈ l2) (hne : a ≠ b) (t : LscTransitions) :
    RecordKeyed (calculateTransitionalProbability2 l1 l2 t).2 a := by
  have hentry : ∀ c d s, RecordKeyed s a → RecordKeyed (entry2 c d s).2 a := by
    intro c d s hs
    unfold entry2
    split_ifs
    · exact hs
    · exact recordKeyed_readLink_of hs c d
  have hrow : ∀ c s, RecordKeyed s a → RecordKeyed (row (entry2 c) l2 s).2 a := fun c s =>
    pass_keeps (R := fun s => RecordKeyed s a) fun d _ s => hentry c d s
  refine pass_established (R := fun s => RecordKeyed s a)
    (f := fun c => row (entry2 c) l2) ha (fun s => ?_) (fun c _ s => hrow c s) t
  refine pass_established (R := fun s => RecordKeyed s a) (f := entry2 a) hb (fun s => ?_)
    (fun d _ s => hentry a d s) s
  rw [entry2, if_neg hne]
  exact recordKeyed_readLink a b s

/-- A call that looks up only lanes with their key 0 changes no record. -/
theorem record_call (h : ∀ a ∈ l1, ∀ b ∈ l2, a ≠ b → RecordKeyed t a) (c : ℕ) :
    (calculateTransitionalProbability2 l1 l2 t).2.record c = t.record c := by
  have hcall : (calculateTransitionalProbability2 l1 l2 t).2.record = t.record := by
    refine pass_keeps (R := fun s => record s = record t)
      (f := fun c => row (entry2 c) l2) (fun a ha s hs => ?_) rfl
    refine pass_keeps (R := fun s => record s = record t) (f := entry2 a) (fun b hb s hs => ?_) hs
    unfold entry2
    split_ifs with hab
    · exact hs
    · have hkeyed : RecordKeyed s a := by
        rw [RecordKeyed, hs]
        exact h a ha b hb hab
      rw [← hs]
      exact funext fun c => record_readLink_of hkeyed b c
  exact congrFun hcall c

/-! ## The entries of a call -/

theorem normalizeRow_getElem?_ne_zero {l : List ℚ≥0} {j : ℕ} {x : ℚ≥0} (hx : l[j]? = some x) :
    ∃ y, (HdmapImpl.normalizeRow l)[j]? = some y ∧ (y ≠ 0 ↔ x ≠ 0) := by
  unfold HdmapImpl.normalizeRow
  split_ifs with hpos
  · refine ⟨x / l.sum, by rw [getElem?_map, hx, map_some], ?_⟩
    rw [Ne, div_eq_zero_iff, or_iff_left hpos.ne']
  · exact ⟨x, hx, Iff.rfl⟩

/-- The entry for two different lanes. -/
theorem entry_call {i j : ℕ} (hi : l1[i]? = some a) (hj : l2[j]? = some b) (hne : a ≠ b)
    (t : LscTransitions) :
    ∃ row x, (calculateTransitionalProbability2 l1 l2 t).1[i]? = some row ∧ row[j]? = some x ∧
      (x ≠ 0 ↔ probability t a b ≠ 0) := by
  have hcell : (l2.map fun c => if a = c then 1 else probability t a c)[j]? =
      some (probability t a b) := by
    rw [getElem?_map, hj, map_some, if_neg hne]
  obtain ⟨x, hx, hiff⟩ := normalizeRow_getElem?_ne_zero hcell
  refine ⟨_, x, ?_, hx, hiff⟩
  rw [(calculateTransitionalProbability2_spec l1 l2 t).1, getElem?_map, hi, map_some]

theorem probability_ne_zero_iff :
    probability t a b ≠ 0 ↔ ∃ lanesect, t.record a = some lanesect ∧
      (b ∈ lanesect.lscNextIndex ∨ adjacent lanesect.lscLeftIndex = some b ∨
        adjacent lanesect.lscRightIndex = some b) := by
  unfold probability
  cases t.record a with
  | none => simp
  | some lanesect =>
      simp only [some_inj, exists_eq_left']
      split_ifs with h
      · simpa [seven_tenths] using h
      · simpa using h

/-- Where the key 0 is there to be read, its value is the neighbour that counts. -/
theorem adjacent_of_zeroKeyed (h : ZeroKeyed index) : adjacent index = index.find 0 := by
  unfold adjacent
  split_ifs with hempty
  · rw [StdMap.find, isEmpty_iff.mp hempty]
    rfl
  · have hmem := h fun hnil => hempty (isEmpty_iff.mpr hnil)
    cases hfind : index.find 0 with
    | none => exact absurd hmem (StdMap.find_eq_none_iff.mp hfind)
    | some v => rfl

/-- With its keys 0 in place, a record gives the recorded neighbours of `a` as far as they
are adjacent. -/
theorem probability_iff_recorded (h : RecordKeyed t a) :
    (probability t a b ≠ 0 ↔ Recorded t a b) ↔
      ∀ lanesect, t.record a = some lanesect → Adjacent lanesect b := by
  rw [probability_ne_zero_iff, Recorded]
  cases hrec : t.record a with
  | none => simp
  | some lanesect =>
      obtain ⟨hleft, hright⟩ := h lanesect hrec
      simp only [some_inj, exists_eq_left', forall_eq', Adjacent,
        adjacent_of_zeroKeyed hleft, adjacent_of_zeroKeyed hright]
      constructor
      · intro hiff
        refine ⟨hleft, hright, fun hside => hiff.mpr (Or.inr hside)⟩
      · rintro ⟨-, -, hside⟩
        constructor
        · exact Or.imp_right (Or.imp (fun h => ⟨0, h⟩) fun h => ⟨0, h⟩)
        · rintro (hnext | hother)
          · exact Or.inl hnext
          · exact hside hother

/-- **The exact condition**: whatever file the table was loaded from, the call follows the
recorded neighbours and leaves them as they are just when every lane it looks up has, in its
neighbour maps, the key 0 or nothing, and the lanes asked for are not among the neighbours
under other keys only. -/
theorem meetsRecord_iff (lanetransjobj : Jsonobject) (before : LscTransitions)
    (lanesId1 lanesId2 : List ℕ) :
    MeetsRecord (generateLanesectTransition lanetransjobj before) lanesId1 lanesId2 ↔
      ∀ a ∈ lanesId1, ∀ b ∈ lanesId2, a ≠ b → ∀ lanesect,
        (generateLanesectTransition lanetransjobj before).record a = some lanesect →
          Adjacent lanesect b := by
  generalize generateLanesectTransition lanetransjobj before = t
  constructor
  · rintro ⟨hentries, hrecord⟩ a ha b hb hne
    have hkeyed : RecordKeyed t a := by
      have hbehind := recordKeyed_call ha hb hne t
      rw [RecordKeyed, hrecord] at hbehind
      exact hbehind
    obtain ⟨i, hi⟩ := getElem?_of_mem ha
    obtain ⟨j, hj⟩ := getElem?_of_mem hb
    refine (probability_iff_recorded hkeyed).mp ?_
    obtain ⟨row, x, hrow, hx, hiff⟩ := hentries i j a b hi hj hne
    obtain ⟨row', x', hrow', hx', hiff'⟩ := entry_call hi hj hne t
    obtain rfl : row = row' := some_inj.mp (hrow.symm.trans hrow')
    obtain rfl : x = x' := some_inj.mp (hx.symm.trans hx')
    exact hiff'.symm.trans hiff
  · intro h
    have hkeyed : ∀ a ∈ lanesId1, ∀ b ∈ lanesId2, a ≠ b → RecordKeyed t a :=
      fun a ha b hb hne lanesect hrec =>
        ⟨(h a ha b hb hne lanesect hrec).1, (h a ha b hb hne lanesect hrec).2.1⟩
    refine ⟨fun i j a b hi hj hne => ?_, record_call hkeyed⟩
    have ha := mem_of_getElem? hi
    have hb := mem_of_getElem? hj
    obtain ⟨row, x, hrow, hx, hiff⟩ := entry_call hi hj hne t
    exact ⟨row, x, hrow, hx, hiff.trans
      ((probability_iff_recorded (hkeyed a ha b hb hne)).mpr (h a ha b hb hne))⟩

/-- A file in which lane 3 has lane 5 on its left, under the key 1. -/
def keyOneFile : Jsonobject :=
  .array [.object
    [("lanesec_index", .number 3 3), ("road_id", .number 0 0), ("length", .number 80 80),
      ("lsc_left_index", .array [.object [("key", .number 1 1), ("value", .number 5 5)]])]]

/-- Asking for the step from lane 3 to lane 5 adds lane 0 to the neighbours of lane 3. -/
theorem meetsRecord_counterexample :
    ¬ MeetsRecord (generateLanesectTransition keyOneFile .empty) [3] [5] := by
  rintro ⟨-, hrecord⟩
  exact absurd (hrecord 3) (by decide +kernel)

end V2I.Hdmap.LscTransitions
