import V2I.Rpcc.Expression

/-!
# V2I.Rpcc.ConvertResult

`expression::ConvertResultTo`: the result of an expression as a number of another type. Every pair
of types has its own test of the range, or none.
-/

namespace V2I.Rpcc

open Double (truncate)

/-- A `double`: a number, an infinity or not a number. -/
inductive DoubleValue where
  | nan
  | negInf
  | finite (x : ℚ)
  | posInf
  deriving DecidableEq

namespace DoubleValue

/-- `<` of two doubles -/
def lt : DoubleValue → DoubleValue → Bool
  | nan, _ | _, nan => false
  | negInf, v => v != negInf
  | finite x, finite y => x < y
  | finite _, v => v == posInf
  | posInf, _ => false

/-- `double(n)` -/
def ofInt (n : ℤ) : DoubleValue := finite n

/-- Conversion to an integer type, without a defined result where the integer part is not one of
its numbers. -/
def toInteger (lo hi : ℤ) : DoubleValue → Option ℤ
  | finite x => if lo ≤ truncate x ∧ truncate x ≤ hi then some (truncate x) else none
  | _ => none

end DoubleValue

open DoubleValue

/-- `_MAXUCHAR` -/
def MAXUCHAR : ℤ := 255

/-- `_MAXUINT` -/
def MAXUINT : ℤ := 4294967295

/-- `_MAXINT` -/
def MAXINT : ℤ := 2147483647

/-- `_MININT` -/
def MININT : ℤ := -2147483648

/-- The tests for an unsigned target with a greatest number: the return value and `value`. -/
def convertToUnsigned (max : ℤ) (resultType : BasicObjtype) (result : DoubleValue) :
    Option (Bool × DoubleValue) :=
  match resultType with
  | .int32 | .int16 | .int64 => some (!lt result (ofInt 0), result)
  | .float =>
      if lt result (ofInt 0) then some (false, result)
      else if lt (ofInt max) result then some (false, result)
      else (toInteger 0 max result).map fun n =>
        (true, if ofInt n ≠ result then ofInt n else result)
  | .uint8 | .uint32 => some (!lt (ofInt max) result, result)
  | .unknown => some (true, result)

/-- The tests for the target `int`. -/
def convertToInt32 (resultType : BasicObjtype) (result : DoubleValue) :
    Option (Bool × DoubleValue) :=
  -- the two tests exclude each other
  let outside := lt result (ofInt MAXINT) && lt (ofInt MAXINT) result
  match resultType with
  | .int32 | .int16 | .int64 => some (!outside, result)
  | .uint8 | .uint32 => some (!lt (ofInt MAXINT) result, result)
  | .float =>
      if outside then some (false, result)
      else (toInteger MININT MAXINT result).map fun n =>
        (true, if ofInt n ≠ result then ofInt n else result)
  | .unknown => some (true, result)

/-- `ConvertResultTo(eTargetType, value)`: the return value and `value` behind it, none where a
conversion has no defined result. -/
def convertResultTo (resultType : BasicObjtype) (result : DoubleValue) (targetType : BasicObjtype)
    (value : DoubleValue) : Option (Bool × DoubleValue) :=
  if resultType = .unknown then some (false, value)
  else
    match targetType with
    | .unknown => some (false, value)
    | .uint8 => convertToUnsigned MAXUCHAR resultType result
    | .uint32 => convertToUnsigned MAXUINT resultType result
    | .int32 => convertToInt32 resultType result
    | .int16 | .int64 | .float => some (true, result)

/-! ## what is delivered -/

/-- The range of an integer type. -/
def range : BasicObjtype → Option (ℤ × ℤ)
  | .uint8 => some (0, 255)
  | .int16 => some (-32768, 32767)
  | .int32 => some (-2147483648, 2147483647)
  | .int64 => some (-9223372036854775808, 9223372036854775807)
  | .uint32 => some (0, 4294967295)
  | .float | .unknown => none

/-- The value lies between the least and the greatest number. -/
def Within (lo hi : ℤ) (v : DoubleValue) : Prop := ∃ x : ℚ, v = finite x ∧ lo ≤ x ∧ x ≤ hi

/-- The value is one of the integers from the least to the greatest. -/
def IsInteger (lo hi : ℤ) (v : DoubleValue) : Prop := ∃ n : ℤ, v = ofInt n ∧ lo ≤ n ∧ n ≤ hi

/-- What is delivered is a number of the type, and a value outside its range is refused. The type
for `float` is `double`, which has every value. -/
def Delivers (resultType : BasicObjtype) (result : DoubleValue) (targetType : BasicObjtype)
    (value : DoubleValue) : Prop :=
  ∃ ret value', convertResultTo resultType result targetType value = some (ret, value') ∧
    ∀ lo hi, range targetType = some (lo, hi) →
      (ret = true → IsInteger lo hi value') ∧ (¬ Within lo hi result → ret = false)

/-- The values that a pair of types is right for. -/
def Meets (resultType : BasicObjtype) (result : DoubleValue) (targetType : BasicObjtype) : Prop :=
  match targetType, resultType with
  | .float, _ | .unknown, _ | _, .unknown => True
  | .int16, _ => IsInteger (-32768) 32767 result
  | .int64, _ => IsInteger (-9223372036854775808) 9223372036854775807 result
  | .uint8, .float | .uint32, .float => result ≠ nan
  | .uint8, .int16 | .uint8, .int32 | .uint8, .int64 =>
      lt result (ofInt 0) = true ∨ IsInteger 0 255 result
  | .uint8, _ => lt (ofInt 255) result = true ∨ IsInteger 0 255 result
  | .uint32, .int16 | .uint32, .int32 | .uint32, .int64 =>
      lt result (ofInt 0) = true ∨ IsInteger 0 4294967295 result
  | .uint32, _ => lt (ofInt 4294967295) result = true ∨ IsInteger 0 4294967295 result
  | .int32, .float => Within (-2147483648) 2147483647 result
  | .int32, .uint8 | .int32, .uint32 =>
      lt (ofInt 2147483647) result = true ∨ IsInteger (-2147483648) 2147483647 result
  | .int32, _ => IsInteger (-2147483648) 2147483647 result

variable {v : DoubleValue} {hi : ℤ}

theorem IsInteger.within {lo : ℤ} (h : IsInteger lo hi v) : Within lo hi v := by
  obtain ⟨n, rfl, hlo, hhi⟩ := h
  exact ⟨n, rfl, by exact_mod_cast hlo, by exact_mod_cast hhi⟩

/-- No value lies below a number and above it. -/
theorem lt_and_lt (v : DoubleValue) (n : ℤ) : (lt v (ofInt n) && lt (ofInt n) v) = false := by
  cases v with
  | nan | negInf | posInf => rfl
  | finite x =>
      simp only [ofInt, lt, Bool.and_eq_false_iff, decide_eq_false_iff_not, not_lt]
      exact (le_total (n : ℚ) x)

/-- What is neither below zero nor above a number is a value up to the number, or not a number. -/
theorem not_lt_iff (hv : v ≠ nan) :
    lt v (ofInt 0) = false ∧ lt (ofInt hi) v = false ↔ Within 0 hi v := by
  cases v with
  | nan => exact absurd rfl hv
  | negInf => simp [Within, lt, ofInt]
  | posInf => simp [Within, lt, ofInt]
  | finite x => simp [Within, lt, ofInt]

theorem truncate_within {lo : ℤ} {x : ℚ} (hhi : 0 ≤ hi) (h : Within lo hi (finite x)) :
    lo ≤ truncate x ∧ truncate x ≤ hi := by
  obtain ⟨y, hy, hge, hle⟩ := h
  obtain rfl : x = y := DoubleValue.finite.inj hy
  unfold truncate
  split
  · next hneg =>
    have : ⌈x⌉ ≤ 0 := Int.ceil_le.mpr (by exact_mod_cast hneg.le)
    exact ⟨by exact_mod_cast hge.trans (Int.le_ceil x), this.trans hhi⟩
  · exact ⟨Int.le_floor.mpr hge, by exact_mod_cast (Int.floor_le x).trans hle⟩

/-- The conversion of a value within the numbers of a type that has zero has a result. -/
theorem toInteger_of_within {lo : ℤ} (hhi : 0 ≤ hi) (h : Within lo hi v) :
    ∃ n, toInteger lo hi v = some n ∧ lo ≤ n ∧ n ≤ hi := by
  obtain ⟨x, rfl, hx⟩ := h
  have hn := truncate_within hhi ⟨x, rfl, hx⟩
  exact ⟨truncate x, if_pos hn, hn⟩

section

variable {resultType targetType : BasicObjtype} {result value : DoubleValue} {lo hi : ℤ}

/-- Where the result itself is delivered, the test refuses it or it is an integer of the range. -/
theorem delivers_of_tested {refuse : Bool} (hr : range targetType = some (lo, hi))
    (h : convertResultTo resultType result targetType value = some (!refuse, result)) :
    Delivers resultType result targetType value ↔ refuse = true ∨ IsInteger lo hi result := by
  constructor
  · rintro ⟨ret', value', h', hall⟩
    obtain ⟨rfl, rfl⟩ := Prod.mk.inj (Option.some.inj (h.symm.trans h'))
    cases refuse with
    | true => exact .inl rfl
    | false => exact .inr ((hall lo hi hr).1 rfl)
  · intro hor
    refine ⟨!refuse, result, h, fun lo' hi' hr' => ?_⟩
    obtain ⟨rfl, rfl⟩ := Prod.mk.inj (Option.some.inj (hr.symm.trans hr'))
    rcases hor with rfl | hin
    · exact ⟨fun hret => absurd hret Bool.false_ne_true, fun _ => rfl⟩
    · exact ⟨fun _ => hin, fun hout => absurd hin.within hout⟩

/-- Without a test only the integers of the range are right. -/
theorem delivers_of_untested (hr : range targetType = some (lo, hi))
    (h : convertResultTo resultType result targetType value = some (true, result)) :
    Delivers resultType result targetType value ↔ IsInteger lo hi result := by
  have htested : convertResultTo resultType result targetType value = some (!false, result) := h
  rw [delivers_of_tested hr htested]
  simp

/-- A number of the type is delivered, and the value was within its range. -/
theorem delivers_of_converted {n : ℤ} (hr : range targetType = some (lo, hi)) (hlo : lo ≤ n)
    (hhi : n ≤ hi) (hin : Within lo hi result)
    (h : convertResultTo resultType result targetType value =
      some (true, if ofInt n ≠ result then ofInt n else result)) :
    Delivers resultType result targetType value := by
  refine ⟨true, _, h, fun lo' hi' hr' => ?_⟩
  obtain ⟨rfl, rfl⟩ := Prod.mk.inj (Option.some.inj (hr.symm.trans hr'))
  refine ⟨fun _ => ⟨n, ?_, hlo, hhi⟩, fun hout => absurd hin hout⟩
  by_cases hne : ofInt n = result <;> simp [hne]

theorem delivers_of_refused {value' : DoubleValue}
    (h : convertResultTo resultType result targetType value = some (false, value')) :
    Delivers resultType result targetType value :=
  ⟨false, value', h, fun _ _ _ => ⟨fun hret => absurd hret Bool.false_ne_true, fun _ => rfl⟩⟩

/-- A `float` to an unsigned type: both bounds are tested. -/
theorem delivers_float_unsigned {max : ℤ} (hmax : 0 ≤ max) (hr : range targetType = some (0, max))
    (h : convertResultTo .float result targetType value = convertToUnsigned max .float result) :
    Delivers .float result targetType value ↔ result ≠ nan := by
  constructor
  · -- the conversion of what is not a number has no result
    rintro ⟨ret, value', h', _⟩ rfl
    have hnone : convertToUnsigned max .float nan = none := rfl
    exact absurd (h'.symm.trans (h.trans hnone)) (Option.some_ne_none _)
  · intro hnan
    by_cases hin : Within 0 max result
    · obtain ⟨n, hn, hlo, hhi⟩ := toInteger_of_within hmax hin
      obtain ⟨hge, hle⟩ := (not_lt_iff hnan).mpr hin
      refine delivers_of_converted hr hlo hhi hin (h.trans ?_)
      simp [convertToUnsigned, hge, hle, hn]
    · -- outside the range one of the two tests refuses
      have hrefused : convertToUnsigned max .float result = some (false, result) := by
        by_cases hneg : lt result (ofInt 0) = true
        · simp [convertToUnsigned, hneg]
        · have hbig : lt (ofInt max) result = true := by
            by_contra hle
            exact hin ((not_lt_iff hnan).mp ⟨by simpa using hneg, by simpa using hle⟩)
          simp [convertToUnsigned, hbig]
      exact delivers_of_refused (h.trans hrefused)

/-- A `float` to `int`: no bound is tested. -/
theorem delivers_float_int32 :
    Delivers .float result .int32 value ↔ Within (-2147483648) 2147483647 result := by
  have hr : range .int32 = some (-2147483648, 2147483647) := rfl
  constructor
  · rintro ⟨ret, value', h, hall⟩
    by_contra hout
    have hret : ret = false := (hall _ _ hr).2 hout
    simp [convertResultTo, convertToInt32, lt_and_lt, hret] at h
  · intro hin
    obtain ⟨n, hn, hlo, hhi⟩ := toInteger_of_within (by decide) hin
    refine delivers_of_converted hr hlo hhi hin ?_
    simp [convertResultTo, convertToInt32, lt_and_lt, MININT, MAXINT, hn]

end

/-- For each pair of types exactly the values of `Meets` are delivered as a number of the target
type or refused. -/
theorem delivers_iff (resultType : BasicObjtype) (result : DoubleValue) (targetType : BasicObjtype)
    (value : DoubleValue) :
    Delivers resultType result targetType value ↔ Meets resultType result targetType := by
  by_cases hunknown : resultType = .unknown
  · subst hunknown
    have hmeets : Meets .unknown result targetType := by cases targetType <;> trivial
    exact iff_of_true (delivers_of_refused  rfl) hmeets
  cases targetType with
  | unknown =>
    exact iff_of_true (delivers_of_refused  (if_neg hunknown)) trivial
  | float =>
    exact iff_of_true ⟨true, result, if_neg hunknown, fun _ _ hr => nomatch hr⟩ trivial
  | uint8 =>
    cases resultType with
    | unknown => exact absurd rfl hunknown
    | float => exact delivers_float_unsigned (by decide) rfl rfl
    | int16 | int32 | int64 => exact delivers_of_tested rfl rfl
    | uint8 | uint32 => exact delivers_of_tested rfl rfl
  | uint32 =>
    cases resultType with
    | unknown => exact absurd rfl hunknown
    | float => exact delivers_float_unsigned (by decide) rfl rfl
    | int16 | int32 | int64 => exact delivers_of_tested rfl rfl
    | uint8 | uint32 => exact delivers_of_tested rfl rfl
  | int32 =>
    cases resultType with
    | unknown => exact absurd rfl hunknown
    | float => exact delivers_float_int32
    | int16 | int32 | int64 =>
      -- the two tests of the upper bound exclude each other
      refine delivers_of_untested rfl ?_
      simp [convertResultTo, convertToInt32, lt_and_lt]
    | uint8 | uint32 => exact delivers_of_tested rfl rfl
  | int16 | int64 =>
    cases resultType with
    | unknown => exact absurd rfl hunknown
    | uint8 | int16 | int32 | int64 | uint32 | float => exact delivers_of_untested rfl rfl

/-- The number -3000000000 is accepted for an `int`. -/
theorem not_delivers :
    ¬ ∀ (resultType : BasicObjtype) (result : DoubleValue) (targetType : BasicObjtype)
        (value : DoubleValue), Delivers resultType result targetType value := by
  intro hall
  obtain ⟨ret, value', h, hok⟩ := hall .int32 (finite (-3000000000)) .int32 (finite 0)
  have hret : ret = false := by
    refine (hok (-2147483648) 2147483647 rfl).2 ?_
    rintro ⟨x, hx, hge, -⟩
    obtain rfl := DoubleValue.finite.inj hx
    norm_num at hge
  simp [convertResultTo, convertToInt32, lt_and_lt, hret] at h

end V2I.Rpcc
