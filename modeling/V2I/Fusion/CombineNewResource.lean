import V2I.Fusion.Fuser
import V2I.Fusion.Km.Rounds
import V2I.Lib.Lists
import V2I.Lib.Placement

/-!
# V2I.Fusion.CombineNewResource

`Fuser::FuseRaysunData`: the targets of the synchronised frames are fused one frame after the
other. `Fusion::CombineNewResource` matches the targets of a frame with the objects fused so
far (`KMkernal`, over the transposed matrix where there are more fused objects than new ones)
and adds those that stay without a match.

The numbers are of an arithmetic that rounds (`Rounding`); a score is rounded once more, to the
`float` that the matrix has. `pos_enu` and `std::hypot` are those of a `Geometry`.
-/

namespace V2I.Fusion

open Km List Option

/-- Where observations are, and how far apart. -/
structure Geometry (O K : Type) where
  /-- the first two coordinates of `pos_enu` -/
  posEnu : O → K × K
  hypot : K → K → K

variable {O K : Type} [Rounding K]

section

variable (g : Geometry O K) (maxMatchDistance : K)

/-- `Fusion::CheckOdistance` -/
def checkOdistance (in1 in2 : VehicleObs O) : K :=
  g.hypot ((g.posEnu in1.measured).1 - (g.posEnu in2.measured).1)
    ((g.posEnu in1.measured).2 - (g.posEnu in2.measured).2)

/-- Two objects that may be one. -/
def Near (o a : VehicleObs O) : Prop := checkOdistance g o a < maxMatchDistance

end

/-! ## the pairs of the matcher -/

/-- Each fused and each new object occurs in one pair, and two objects of a pair are near. -/
structure Matches (near : VehicleObs O → VehicleObs O → Prop)
    (newObjects fusedObjects : List (VehicleObs O)) (matchCps : List (Int × Int)) : Prop where
  newOnce : ∀ t < newObjects.length, (matchCps.map Prod.snd).count (t : Int) = 1
  fusedOnce : ∀ i < fusedObjects.length, (matchCps.map Prod.fst).count (i : Int) = 1
  fst : ∀ cp ∈ matchCps, cp.1 = -1 ∨ ∃ i < fusedObjects.length, cp.1 = (i : Int)
  snd : ∀ cp ∈ matchCps, cp.2 = -1 ∨ ∃ t < newObjects.length, cp.2 = (t : Int)
  near : ∀ (i t : ℕ) o a, ((i : Int), (t : Int)) ∈ matchCps → fusedObjects[i]? = some o →
    newObjects[t]? = some a → near o a

section

variable {g : Geometry O K} {maxMatchDistance : K}

variable {fusedObjects newObjects : List (VehicleObs O)} {r : Bool × List (Int × Int)} {fuel : ℕ}

end

/-! ## the objects added -/

/-- The new objects that the pairs leave without a match. -/
def unmatched (matchCps : List (Int × Int)) : List ℕ :=
  (matchCps.filter fun cp => cp.1 = -1 ∧ cp.2 ≠ -1).map fun cp => cp.2.toNat

theorem mem_unmatched {matchCps : List (Int × Int)} {t : ℕ} (h : (-1, (t : Int)) ∈ matchCps) :
    t ∈ unmatched matchCps :=
  mem_map.mpr ⟨_, mem_filter.mpr ⟨h, by simp⟩, by simp⟩

section

variable {near : VehicleObs O → VehicleObs O → Prop} {newObjects fusedObjects : List (VehicleObs O)}
  {matchCps : List (Int × Int)}

variable {t : ℕ}

theorem Matches.of_mem_unmatched (h : Matches near newObjects fusedObjects matchCps)
    (ht : t ∈ unmatched matchCps) : (-1, (t : Int)) ∈ matchCps ∧ t < newObjects.length := by
  obtain ⟨⟨i, j⟩, hin, rfl⟩ := mem_map.mp ht
  obtain ⟨hcp, hcond⟩ := mem_filter.mp hin
  obtain ⟨rfl, hj⟩ : i = -1 ∧ j ≠ -1 := of_decide_eq_true hcond
  obtain ⟨t', ht', rfl⟩ := (h.snd _ hcp).resolve_left hj
  exact ⟨hcp, ht'⟩

theorem Matches.eq_of_snd (h : Matches near newObjects fusedObjects matchCps)
    (ht : t < newObjects.length) {i i' : Int} (hi : (i, (t : Int)) ∈ matchCps)
    (hi' : (i', (t : Int)) ∈ matchCps) : i = i' :=
  congrArg Prod.fst (eq_of_count_map_eq_one (f := Prod.snd) (h.newOnce t ht) hi hi' rfl)

theorem Matches.eq_of_fst (h : Matches near newObjects fusedObjects matchCps) {i : ℕ}
    (hi : i < fusedObjects.length) {t t' : Int} (ht : ((i : Int), t) ∈ matchCps)
    (ht' : ((i : Int), t') ∈ matchCps) : t = t' :=
  congrArg Prod.snd (eq_of_count_map_eq_one (f := Prod.fst) (h.fusedOnce i hi) ht ht' rfl)

/-- A new object has a fused one or is left over. -/
theorem Matches.matched_or_unmatched (h : Matches near newObjects fusedObjects matchCps)
    (ht : t < newObjects.length) :
    (∃ i < fusedObjects.length, ((i : Int), (t : Int)) ∈ matchCps) ∨ t ∈ unmatched matchCps := by
  have hmem : (t : Int) ∈ matchCps.map Prod.snd :=
    one_le_count_iff.mp (h.newOnce t ht).ge
  obtain ⟨⟨i, j⟩, hcp, rfl⟩ := mem_map.mp hmem
  obtain rfl | ⟨i', hi', rfl⟩ := h.fst _ hcp
  · exact .inr (mem_unmatched hcp)
  · exact .inl ⟨i', hi', hcp⟩

theorem Matches.nodup_unmatched (h : Matches near newObjects fusedObjects matchCps) :
    (unmatched matchCps).Nodup := by
  refine nodup_iff_count_le_one.mpr fun t => ?_
  by_cases ht : t ∈ unmatched matchCps
  · refine le_trans ?_ (h.newOnce t (h.of_mem_unmatched ht).2).le
    rw [unmatched, List.count, countP_map, countP_filter, List.count, countP_map]
    refine countP_mono_left fun cp hcp hcond => ?_
    simp only [Function.comp_apply, Bool.and_eq_true, beq_iff_eq, decide_eq_true_eq] at hcond ⊢
    obtain ⟨rfl, -, hne⟩ := hcond
    obtain ⟨t', -, heq⟩ := (h.snd cp hcp).resolve_left hne
    rw [heq]
    rfl
  · rw [count_eq_zero_of_not_mem ht]
    exact Nat.zero_le 1

open Classical in
/-- The place of a new object: its match, or the end. -/
noncomputable def slotOf (matchCps : List (Int × Int)) (fusedObjects : List (VehicleObs O))
    (t : ℕ) : ℕ :=
  if h : ∃ i < fusedObjects.length, ((i : Int), (t : Int)) ∈ matchCps then h.choose
  else fusedObjects.length + (unmatched matchCps).idxOf t

theorem Matches.slotOf_eq (h : Matches near newObjects fusedObjects matchCps) {i : ℕ}
    (hi : i < fusedObjects.length) (hcp : ((i : Int), (t : Int)) ∈ matchCps)
    (ht : t < newObjects.length) : slotOf matchCps fusedObjects t = i := by
  have hex : ∃ i < fusedObjects.length, ((i : Int), (t : Int)) ∈ matchCps := ⟨i, hi, hcp⟩
  rw [slotOf, dif_pos hex]
  exact Int.ofNat_inj.mp (h.eq_of_snd ht hex.choose_spec.2 hcp)

theorem Matches.slotOf_unmatched (h : Matches near newObjects fusedObjects matchCps)
    (ht : t ∈ unmatched matchCps) :
    slotOf matchCps fusedObjects t = fusedObjects.length + (unmatched matchCps).idxOf t := by
  obtain ⟨hcp, hlt⟩ := h.of_mem_unmatched ht
  refine dif_neg ?_
  rintro ⟨i, -, hi⟩
  have heq := h.eq_of_snd hlt hcp hi
  omega

/-- **The pairs place the new objects**: one that has a match in its place, the others at the
end. -/
theorem Matches.placed (h : Matches near newObjects fusedObjects matchCps) :
    Placed near fusedObjects newObjects
      (fusedObjects ++ (unmatched matchCps).filterMap (newObjects[·]?))
      (slotOf matchCps fusedObjects) := by
  have hrange : ∀ t ∈ unmatched matchCps, t < newObjects.length :=
    fun t ht => (h.of_mem_unmatched ht).2
  have hlength := length_filterMap_getElem? hrange
  have hend : ∀ r, (fusedObjects ++ (unmatched matchCps).filterMap (newObjects[·]?))[
      fusedObjects.length + r]? = (unmatched matchCps)[r]?.bind (newObjects[·]?) := fun r => by
    rw [getElem?_append_right (Nat.le_add_right _ _), Nat.add_sub_cancel_left,
      getElem?_filterMap_getElem? hrange]
  refine ⟨prefix_append _ _, ?_, ?_, ?_, ?_, ?_⟩
  · have hsub : unmatched matchCps ⊆ List.range newObjects.length :=
      fun t ht => mem_range.mpr (hrange t ht)
    have hle := (subperm_of_subset h.nodup_unmatched hsub).length_le
    rw [length_range] at hle
    rw [length_append, hlength]
    omega
  · intro t t' ht ht' heq
    obtain ⟨i, hi, hcp⟩ | hun := h.matched_or_unmatched ht <;>
      obtain ⟨i', hi', hcp'⟩ | hun' := h.matched_or_unmatched ht'
    · rw [h.slotOf_eq hi hcp ht, h.slotOf_eq hi' hcp' ht'] at heq
      subst heq
      exact Int.ofNat_inj.mp (h.eq_of_fst hi hcp hcp')
    · rw [h.slotOf_eq hi hcp ht, h.slotOf_unmatched hun'] at heq
      omega
    · rw [h.slotOf_unmatched hun, h.slotOf_eq hi' hcp' ht'] at heq
      omega
    · rw [h.slotOf_unmatched hun, h.slotOf_unmatched hun', Nat.add_left_cancel_iff] at heq
      exact (idxOf_inj hun).mp heq
  · intro t a ha hstart
    have ht := (List.getElem?_eq_some_iff.mp ha).1
    obtain ⟨i, hi, hcp⟩ | hun := h.matched_or_unmatched ht
    · rw [h.slotOf_eq hi hcp ht] at hstart
      omega
    · rw [h.slotOf_unmatched hun, hend, getElem?_idxOf hun, bind_some, ha]
  · intro t a ha hslot
    have ht := (List.getElem?_eq_some_iff.mp ha).1
    obtain ⟨i, hi, hcp⟩ | hun := h.matched_or_unmatched ht
    · rw [h.slotOf_eq hi hcp ht]
      exact ⟨_, getElem?_eq_getElem hi, h.near i t _ a hcp (getElem?_eq_getElem hi) ha⟩
    · rw [h.slotOf_unmatched hun] at hslot
      omega
  · intro k hstart hk
    rw [length_append, hlength] at hk
    have hr : k - fusedObjects.length < (unmatched matchCps).length := by omega
    have hmem := getElem_mem hr
    refine ⟨_, hrange _ hmem, ?_⟩
    rw [h.slotOf_unmatched hmem, h.nodup_unmatched.idxOf_getElem]
    omega

end

/-! ## frames -/

section

variable {g : Geometry O K} {maxMatchDistance : K} {fusedObjects newObjects : List (VehicleObs O)}
    {fuel : ℕ}

variable {r : Bool × List (VehicleObs O)}

variable {all : List (VehicleObs O)} {before : List (RaysunFrame O)}

variable {syncFrames : List (RaysunFrame O)}

end

/-! ## objects on a line, in `double` -/

/-- `std::hypot`, of numbers one of which is zero. -/
def line : Geometry Binary64 Binary64 where
  posEnu x := (x, 0)
  hypot x y := max (max x (0 - x)) (max y (0 - y))

end V2I.Fusion
