import Mathlib.Data.List.Basic

/-!
# V2I.Rpcc.Typedef

What a chain of typedefs stands for (`typedef_object::GetOriginalType`): the type at its end with
the object found there, and the array bound found on the way.
-/

namespace V2I.Rpcc

/-- `basic_objtype` -/
inductive ObjType where
  | unknown
  | boolean
  | uint8
  | int16
  | int32
  | int64
  | uint32
  | float
  | stream
  | string
  | enum
  | interface
  | typedefed
  | userDefined
  deriving DecidableEq

/-- `IsBasicObjectType` -/
def ObjType.isBasic : ObjType → Bool
  | .unknown | .enum | .interface | .typedefed | .userDefined => false
  | _ => true

/-- `EArrayType` -/
inductive ArrayType where
  | unknown
  | fixed
  | variable
  | notArray
  deriving DecidableEq

/-- `TArrayTypeObject` -/
structure ArrayTypeObject where
  arrayType : ArrayType
  arraySize : UInt32
  deriving DecidableEq

/-- `is_array` -/
def ArrayTypeObject.isArray (a : ArrayTypeObject) : Bool :=
  a.arrayType == .fixed || a.arrayType == .variable

/-- `typedef_object`, by what it refers to. -/
inductive TypedefObject (U E I : Type)
  | basic (arrayType : ArrayTypeObject) (basicType : { t : ObjType // t.isBasic = true })
  | userDefined (arrayType : ArrayTypeObject) (userDefType : U)
  | enumDef (arrayType : ArrayTypeObject) (enumDef : E)
  | ifObject (arrayType : ArrayTypeObject) (ifObject : I)
  | typedefed (arrayType : ArrayTypeObject) (refType : TypedefObject U E I)

/-- The value and the outputs of `GetOriginalType`: the variables for an enum and an interface are
none where the caller passes a null pointer for them. -/
structure Original (U E I : Type) where
  userDef : Option U
  eType : ObjType
  arrayType : ArrayTypeObject
  enumDef : Option (Option E)
  ifObj : Option (Option I)
  deriving DecidableEq

variable {U E I : Type}

namespace TypedefObject

/-- `GetOriginalType` -/
def getOriginalType (ppEnumDef : Option (Option E)) (ppIFObj : Option (Option I)) :
    TypedefObject U E I → Original U E I
  | basic arrayType t => ⟨none, t, arrayType, ppEnumDef, ppIFObj⟩
  | userDefined arrayType u =>
      ⟨some u, .userDefined, arrayType, ppEnumDef.map fun _ => none, ppIFObj⟩
  | enumDef arrayType e => ⟨none, .enum, arrayType, ppEnumDef.map fun _ => some e, ppIFObj⟩
  | ifObject arrayType i => ⟨none, .interface, arrayType, ppEnumDef, ppIFObj.map fun _ => some i⟩
  | typedefed arrayType refType =>
      -- what the inner call returns is not used
      let r := getOriginalType ppEnumDef ppIFObj refType
      if arrayType.isArray && r.arrayType.isArray then
        { r with userDef := none, eType := .unknown, enumDef := r.enumDef.map fun _ => none }
      else
        let arrayType := if arrayType.isArray then arrayType else r.arrayType
        { r with userDef := none, arrayType := arrayType }

/-! ## what a chain stands for -/

/-- The arrays of the links of a chain. -/
def links : TypedefObject U E I → List ArrayTypeObject
  | basic arrayType _ | userDefined arrayType _ | enumDef arrayType _ | ifObject arrayType _ =>
      [arrayType]
  | typedefed arrayType refType => arrayType :: refType.links

/-- The array bounds along the chain. -/
def bounds (c : TypedefObject U E I) : List ArrayTypeObject := c.links.filter (·.isArray)

/-- The type at the end of the chain. -/
def finalType : TypedefObject U E I → ObjType
  | basic _ t => t
  | userDefined .. => .userDefined
  | enumDef .. => .enum
  | ifObject .. => .interface
  | typedefed _ refType => refType.finalType

/-- The structure at the end of the chain. -/
def finalUserDef : TypedefObject U E I → Option U
  | userDefined _ u => some u
  | typedefed _ refType => refType.finalUserDef
  | _ => none

/-- The enum at the end of the chain. -/
def finalEnumDef : TypedefObject U E I → Option E
  | enumDef _ e => some e
  | typedefed _ refType => refType.finalEnumDef
  | _ => none

/-- The interface at the end of the chain. -/
def finalIfObject : TypedefObject U E I → Option I
  | ifObject _ i => some i
  | typedefed _ refType => refType.finalIfObject
  | _ => none

/-- Does the chain begin with a reference to another typedef? -/
def isTypedefed : TypedefObject U E I → Bool
  | typedefed .. => true
  | _ => false

variable {α : Type}

/-- What is found at the end of the chain is reported where there are not two bounds. -/
def found (c : TypedefObject U E I) (final : Option α) : Option α :=
  if 2 ≤ c.bounds.length then none else final

/-- The chain is reported: the type and the bound, and the object of the type with null for the
others, in the variables that the caller passes. -/
structure Reports (c : TypedefObject U E I) (ppEnumDef : Option (Option E))
    (ppIFObj : Option (Option I)) (r : Original U E I) : Prop where
  eType : r.eType = if 2 ≤ c.bounds.length then .unknown else c.finalType
  noBound : c.bounds = [] → r.arrayType.isArray = false
  bound : ∀ a, c.bounds = [a] → r.arrayType = a
  userDef : r.userDef = c.found c.finalUserDef
  enumDef : r.enumDef = ppEnumDef.map fun _ => c.found c.finalEnumDef
  ifObj : r.ifObj = ppIFObj.map fun _ => c.found c.finalIfObject

/-- The structure is not behind a second typedef; a variable for an enum is null or the chain sets
it, and so is one for an interface, which is not passed for an interface with two bounds. -/
structure Meets (c : TypedefObject U E I) (ppEnumDef : Option (Option E))
    (ppIFObj : Option (Option I)) : Prop where
  userDef : c.bounds.length < 2 → c.finalUserDef ≠ none → c.isTypedefed = false
  enumDef : c.bounds.length < 2 → c.finalUserDef = none → c.finalEnumDef = none →
    ∀ e, ppEnumDef ≠ some (some e)
  ifObj : c.finalIfObject = none → ∀ i, ppIFObj ≠ some (some i)
  twoBounds : 2 ≤ c.bounds.length → c.finalIfObject ≠ none → ppIFObj = none

/-! ## what is reported -/

variable (ppEnumDef : Option (Option E)) (ppIFObj : Option (Option I)) (arrayType : ArrayTypeObject)

theorem bounds_typedefed (refType : TypedefObject U E I) :
    (typedefed arrayType refType).bounds =
      if arrayType.isArray then arrayType :: refType.bounds else refType.bounds :=
  List.filter_cons

variable (c : TypedefObject U E I)

/-- **The bound** that is reported is the only one. -/
theorem getOriginalType_arrayType :
    ((c.getOriginalType ppEnumDef ppIFObj).arrayType.isArray = true ↔ c.bounds ≠ []) ∧
      ∀ a, c.bounds = [a] → (c.getOriginalType ppEnumDef ppIFObj).arrayType = a := by
  have hone : ∀ a : ArrayTypeObject, (a.isArray = true ↔ [a].filter (·.isArray) ≠ []) ∧
      ∀ b, [a].filter (·.isArray) = [b] → a = b := by
    intro a
    cases h : a.isArray <;> simp [h]
  induction c with
  | basic arrayType t => exact hone arrayType
  | userDefined arrayType u => exact hone arrayType
  | enumDef arrayType e => exact hone arrayType
  | ifObject arrayType i => exact hone arrayType
  | typedefed arrayType refType ih =>
      obtain ⟨hisArray, hbound⟩ := ih
      rw [bounds_typedefed, getOriginalType]
      cases houter : arrayType.isArray with
      | false =>
          simp only [Bool.false_and, Bool.false_eq_true, if_false]
          exact ⟨hisArray, hbound⟩
      | true =>
          simp only [Bool.true_and, if_true]
          cases hinner : (refType.getOriginalType ppEnumDef ppIFObj).arrayType.isArray with
          | true =>
              have hne := hisArray.mp hinner
              simp only [if_true, List.cons.injEq]
              exact ⟨iff_of_true hinner (List.cons_ne_nil _ _), fun a h => absurd h.2 hne⟩
          | false =>
              simp only [Bool.false_eq_true, if_false, List.cons.injEq]
              exact ⟨iff_of_true houter (List.cons_ne_nil _ _), fun a h => h.1⟩

/-- A second bound on a chain. -/
theorem two_le_bounds_iff (refType : TypedefObject U E I) :
    2 ≤ (typedefed arrayType refType).bounds.length ↔ 2 ≤ refType.bounds.length ∨
      (arrayType.isArray &&
        (refType.getOriginalType ppEnumDef ppIFObj).arrayType.isArray) = true := by
  have hinner := (refType.getOriginalType_arrayType ppEnumDef ppIFObj).1
  rw [bounds_typedefed, Bool.and_eq_true, hinner, ← List.length_pos_iff]
  split_ifs with houter
  · rw [List.length_cons]
    simp only [houter, true_and]
    omega
  · simp only [houter, Bool.false_eq_true, false_and, or_false]

theorem bounds_lt_two {c : TypedefObject U E I} (h : c.isTypedefed = false) :
    c.bounds.length < 2 := by
  have hle := List.length_filter_le (·.isArray) c.links
  cases c with
  | typedefed => cases h
  | _ => exact Nat.lt_succ_of_le hle

/-- **The type** is that at the end of the chain, and unknown for two bounds or more. -/
theorem getOriginalType_eType :
    (c.getOriginalType ppEnumDef ppIFObj).eType =
      if 2 ≤ c.bounds.length then .unknown else c.finalType := by
  induction c with
  | typedefed arrayType refType ih =>
      rw [getOriginalType]
      by_cases hboth : (arrayType.isArray &&
          (refType.getOriginalType ppEnumDef ppIFObj).arrayType.isArray) = true
      · rw [if_pos hboth, if_pos ((two_le_bounds_iff ppEnumDef ppIFObj _ _).mpr (.inr hboth))]
      · rw [if_neg hboth]
        simp only [ih, two_le_bounds_iff ppEnumDef ppIFObj, hboth, Bool.false_eq_true, or_false,
          finalType]
  | _ => exact (if_neg (Nat.not_le.mpr (bounds_lt_two rfl))).symm

/-- **The structure** is lost behind the first link. -/
theorem getOriginalType_userDef :
    (c.getOriginalType ppEnumDef ppIFObj).userDef =
      if c.isTypedefed then none else c.finalUserDef := by
  cases c with
  | basic arrayType t => rfl
  | userDefined arrayType u => rfl
  | enumDef arrayType e => rfl
  | ifObject arrayType i => rfl
  | typedefed arrayType refType =>
      simp only [isTypedefed, if_true, getOriginalType]
      split_ifs <;> rfl

/-- **The variable for an enum** is left as it was for a basic type and an interface. -/
theorem getOriginalType_enumDef :
    (c.getOriginalType ppEnumDef ppIFObj).enumDef =
      if 2 ≤ c.bounds.length ∨ c.finalUserDef ≠ none ∨ c.finalEnumDef ≠ none then
        ppEnumDef.map fun _ => c.found c.finalEnumDef
      else ppEnumDef := by
  induction c with
  | basic arrayType t =>
      refine (if_neg ?_).symm
      rw [not_or, Nat.not_le]
      exact ⟨bounds_lt_two rfl, by simp [finalUserDef, finalEnumDef]⟩
  | userDefined arrayType u =>
      rw [if_pos (.inr (.inl (Option.some_ne_none u))), found,
        if_neg (Nat.not_le.mpr (bounds_lt_two rfl))]
      rfl
  | enumDef arrayType e =>
      rw [if_pos (.inr (.inr (Option.some_ne_none e))), found,
        if_neg (Nat.not_le.mpr (bounds_lt_two rfl))]
      rfl
  | ifObject arrayType i =>
      refine (if_neg ?_).symm
      rw [not_or, Nat.not_le]
      exact ⟨bounds_lt_two rfl, by simp [finalUserDef, finalEnumDef]⟩
  | typedefed arrayType refType ih =>
      rw [getOriginalType]
      by_cases hboth : (arrayType.isArray &&
          (refType.getOriginalType ppEnumDef ppIFObj).arrayType.isArray) = true
      · have htwo := (two_le_bounds_iff ppEnumDef ppIFObj _ _).mpr (.inr hboth)
        rw [if_pos hboth, if_pos (.inl htwo), found, if_pos htwo]
        simp only [ih]
        split_ifs
        · rw [Option.map_map]
          rfl
        · rfl
      · rw [if_neg hboth]
        simp only [ih, two_le_bounds_iff ppEnumDef ppIFObj, hboth, Bool.false_eq_true, or_false,
          found, finalUserDef, finalEnumDef]

/-- **The variable for an interface** is left as it was for all other types. -/
theorem getOriginalType_ifObj :
    (c.getOriginalType ppEnumDef ppIFObj).ifObj =
      if c.finalIfObject = none then ppIFObj else ppIFObj.map fun _ => c.finalIfObject := by
  induction c with
  | basic arrayType t => rfl
  | userDefined arrayType u => rfl
  | enumDef arrayType e => rfl
  | ifObject arrayType i => rfl
  | typedefed arrayType refType ih =>
      rw [finalIfObject, ← ih, getOriginalType]
      split_ifs <;> rfl

variable {p : Option (Option α)}

/-- A variable is null for nothing exactly when it was before. -/
theorem eq_map_none_iff : (p = p.map fun _ => none) ↔ ∀ x, p ≠ some (some x) := by
  rcases p with - | - | x <;> simp

/-- A variable that was set is null only where none is passed. -/
theorem map_some_eq_map_none_iff {x : α} :
    ((p.map fun _ => some x) = p.map fun _ => none) ↔ p = none := by
  cases p <;> simp

/-- The structure is right unless it is behind a second link. -/
theorem userDef_eq_found_iff :
    (c.getOriginalType ppEnumDef ppIFObj).userDef = c.found c.finalUserDef ↔
      (c.bounds.length < 2 → c.finalUserDef ≠ none → c.isTypedefed = false) := by
  rw [getOriginalType_userDef, found]
  cases htypedefed : c.isTypedefed with
  | false =>
      rw [if_neg (Nat.not_le.mpr (bounds_lt_two htypedefed))]
      exact iff_of_true rfl fun _ _ => rfl
  | true =>
      simp only [if_true, Bool.true_eq_false, imp_false, not_not]
      split_ifs with htwo
      · exact iff_of_true rfl fun hlt => absurd htwo (Nat.not_le.mpr hlt)
      · rw [forall_prop_of_true (Nat.not_le.mp htwo), eq_comm]

/-- The variable for an enum is right where it is set, or was null. -/
theorem enumDef_eq_found_iff :
    (c.getOriginalType ppEnumDef ppIFObj).enumDef =
      (ppEnumDef.map fun _ => c.found c.finalEnumDef) ↔
      (c.bounds.length < 2 → c.finalUserDef = none → c.finalEnumDef = none →
        ∀ e, ppEnumDef ≠ some (some e)) := by
  rw [getOriginalType_enumDef]
  split_ifs with hset
  · refine iff_of_true rfl fun hlt huser henum => ?_
    obtain htwo | huser' | henum' := hset
    · exact absurd htwo (Nat.not_le.mpr hlt)
    · exact absurd huser huser'
    · exact absurd henum henum'
  · simp only [not_or, Nat.not_le, not_not] at hset
    obtain ⟨hlt, huser, henum⟩ := hset
    rw [found, if_neg (Nat.not_le.mpr hlt), henum, eq_map_none_iff]
    simp only [hlt, huser, forall_const]

/-- The variable for an interface is right where it was null, or is set and there are no two
bounds. -/
theorem ifObj_eq_found_iff :
    (c.getOriginalType ppEnumDef ppIFObj).ifObj =
      (ppIFObj.map fun _ => c.found c.finalIfObject) ↔
      (c.finalIfObject = none → ∀ i, ppIFObj ≠ some (some i)) ∧
        (2 ≤ c.bounds.length → c.finalIfObject ≠ none → ppIFObj = none) := by
  rw [getOriginalType_ifObj, found]
  cases hfinal : c.finalIfObject with
  | none =>
      rw [if_pos rfl, ite_self, eq_map_none_iff]
      simp
  | some i =>
      rw [if_neg (Option.some_ne_none i)]
      split_ifs with htwo
      · rw [map_some_eq_map_none_iff]
        simp [htwo]
      · simp [htwo]

/-- **A chain is reported** exactly when its structure is not behind a second typedef and the
variables that it leaves as they are were null. -/
theorem reports_iff (c : TypedefObject U E I) :
    c.Reports ppEnumDef ppIFObj (c.getOriginalType ppEnumDef ppIFObj) ↔
      c.Meets ppEnumDef ppIFObj := by
  obtain ⟨hisArray, hbound⟩ := c.getOriginalType_arrayType ppEnumDef ppIFObj
  constructor
  · intro h
    obtain ⟨hnone, htwo⟩ := (c.ifObj_eq_found_iff ppEnumDef ppIFObj).mp h.ifObj
    exact ⟨(c.userDef_eq_found_iff ppEnumDef ppIFObj).mp h.userDef,
      (c.enumDef_eq_found_iff ppEnumDef ppIFObj).mp h.enumDef, hnone, htwo⟩
  · intro h
    exact ⟨c.getOriginalType_eType ppEnumDef ppIFObj, fun hnil => by simpa [hnil] using hisArray,
      hbound, (c.userDef_eq_found_iff ppEnumDef ppIFObj).mpr h.userDef,
      (c.enumDef_eq_found_iff ppEnumDef ppIFObj).mpr h.enumDef,
      (c.ifObj_eq_found_iff ppEnumDef ppIFObj).mpr ⟨h.ifObj, h.twoBounds⟩⟩

end TypedefObject

/-- `typedef S A; typedef A B;` for a structure `S`, at `B`. -/
def structureTwice : TypedefObject ℕ ℕ ℕ :=
  .typedefed ⟨.notArray, 0⟩ (.userDefined ⟨.notArray, 0⟩ 1)

/-- `typedef int C;` -/
def intOnce : TypedefObject ℕ ℕ ℕ := .basic ⟨.notArray, 0⟩ ⟨.int32, rfl⟩

/-- The structure is not returned behind a second typedef, and a variable for an enum keeps what it
has for a basic type. -/
theorem not_reports :
    ((structureTwice.getOriginalType none none).userDef = none ∧
      ¬ structureTwice.Reports none none (structureTwice.getOriginalType none none)) ∧
    ((intOnce.getOriginalType (some (some 7)) none).enumDef = some (some 7) ∧
      ¬ intOnce.Reports (some (some 7)) none (intOnce.getOriginalType (some (some 7)) none)) := by
  refine ⟨⟨rfl, fun h => ?_⟩, rfl, fun h => ?_⟩
  · exact absurd h.userDef (by decide)
  · exact absurd h.enumDef (by decide)

end V2I.Rpcc
