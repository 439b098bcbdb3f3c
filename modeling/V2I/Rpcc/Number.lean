import V2I.Rpcc.Expression

/-!
# V2I.Rpcc.Number

A number in a source text is read twice: `CheckNumber` of the lexer cuts a token out of the line,
and `CheckAsNumber` of the token parser takes the token apart. Numbers are rationals here.
-/

namespace V2I.Rpcc

open List Option

/-- `token_parser::IsNumber` -/
def isNumber (c : Char) : Bool := '0' ≤ c && c ≤ '9'

/-- `c - '0'` -/
def digit (c : Char) : ℕ := c.toNat - '0'.toNat

/-- A number token. -/
structure NumberToken where
  name : List Char
  eId : NumberId
  numValue : ℚ
  deriving DecidableEq

/-- `CheckAsNumber` is left through `SetNumber`, through `ErrorNumber`, or as "not a number". -/
inductive CheckedNumber where
  | set (token : NumberToken)
  | errorNumber (name : List Char)
  | notNumber
  deriving DecidableEq

/-- `SetNumber(tkn, sz, num, minus, is_float)` -/
def setNumber (tkn : List Char) (num : ℚ) (minus isFloat : Bool) : NumberToken where
  name := tkn
  eId := if isFloat then .float else if minus then .int else .uint
  numValue := if minus then -num else num

/-- The part `[100].32e+12`. -/
def wholePart (num : ℚ) : List Char → ℚ × List Char
  | [] => (num, [])
  | c :: tkn => if isNumber c then wholePart (num * 10 + digit c) tkn else (num, c :: tkn)

/-- The part `100.[32]e+12`. -/
def fractionPart (num tmp : ℚ) : List Char → ℚ × List Char
  | [] => (num, [])
  | c :: tkn =>
      if isNumber c then fractionPart (num + digit c / tmp) (tmp * 10) tkn else (num, c :: tkn)

/-- The part `100.32e+[12]`, an `unsigned int`. -/
def powerPart (power : ℕ) : List Char → ℕ × List Char
  | [] => (power, [])
  | c :: tkn =>
      if isNumber c then powerPart ((power * 10 + digit c) % 2 ^ 32) tkn else (power, c :: tkn)

/-- `for (; power; --power) num = (minus_power) ? (num / 10) : (num * 10)` -/
def applyPower (minusPower : Bool) : ℕ → ℚ → ℚ
  | 0, num => num
  | power + 1, num => applyPower minusPower power (if minusPower then num / 10 else num * 10)

/-- A sign in front and what follows it; true for a minus. -/
def takeSign : List Char → Bool × List Char
  | '+' :: tkn => (false, tkn)
  | '-' :: tkn => (true, tkn)
  | tkn => (false, tkn)

/-- `CheckAsNumber` behind `100.32e`. -/
def checkPower (org : List Char) (num : ℚ) (minus : Bool) (tkn : List Char) : CheckedNumber :=
  if tkn = [] then .errorNumber org
  else
    let (minusPower, tkn) := takeSign tkn
    if tkn = [] then .errorNumber org
    else
      let (power, tkn) := powerPart 0 tkn
      if tkn ≠ [] then .errorNumber org
      else if power > 100 then .errorNumber org
      else .set (setNumber org (applyPower minusPower power num) minus true)

/-- `CheckAsNumber` behind `100.32`. -/
def checkMark (org : List Char) (num : ℚ) (minus isFloat : Bool) : List Char → CheckedNumber
  | [] => .set (setNumber org num minus isFloat)
  | c :: tkn => if c ≠ 'e' ∧ c ≠ 'E' then .errorNumber org else checkPower org num minus tkn

/-- `token_parser::CheckAsNumber` -/
def checkAsNumber (org : List Char) : CheckedNumber :=
  let (minus, tkn) := takeSign org
  if tkn = [] then .notNumber
  else
    let (num, part1) := wholePart 0 tkn
    match part1 with
    | [] => .set (setNumber org num minus false)
    | '.' :: tkn =>
        let (num, tkn) := fractionPart num 10 tkn
        checkMark org num minus true tkn
    | c :: part => if c :: part = tkn then .notNumber else checkMark org num minus false part1

/-! ## the literals -/

inductive Sign where
  | plus
  | minus
  deriving DecidableEq

def Sign.char : Sign → Char
  | plus => '+'
  | minus => '-'

/-- The text of an optional sign. -/
def signText (sign : Option Sign) : List Char := sign.elim [] fun s => [s.char]

/-- A group of digits as text. -/
def digitsText (digits : List (Fin 10)) : List Char := digits.map fun d => d.val.digitChar

/-- The number that a group of digits stands for. -/
def digitsValue (digits : List (Fin 10)) : ℕ := digits.foldl (fun n d => 10 * n + d.val) 0

/-- `(e|E) [sign] digits` -/
structure Exponent where
  upper : Bool
  sign : Option Sign
  digits : List (Fin 10)
  digits_ne_nil : digits ≠ []

def Exponent.text (e : Exponent) : List Char :=
  (if e.upper then 'E' else 'e') :: (signText e.sign ++ digitsText e.digits)

/-- The text of an optional exponent. -/
def exponentText (exponent : Option Exponent) : List Char := exponent.elim [] Exponent.text

/-- The exponent without its sign. -/
def exponentSize (exponent : Option Exponent) : ℕ :=
  exponent.elim 0 fun e => digitsValue e.digits

/-- The power of ten for an exponent of this size. -/
def exponentFactor (exponent : Option Exponent) (size : ℕ) : ℚ :=
  if exponent.bind (·.sign) = some .minus then (10 ^ size)⁻¹ else 10 ^ size

/-- A number with digits in front of its point, or with a point. -/
structure NumberForm where
  sign : Option Sign
  whole : List (Fin 10)
  fraction : Option (List (Fin 10))
  exponent : Option Exponent
  has_part : whole ≠ [] ∨ fraction ≠ none

/-- A literal has digits behind its point. -/
structure Literal extends NumberForm where
  fraction_ne_nil : fraction ≠ some []

namespace NumberForm

variable (f : NumberForm)

def fractionText : List Char := f.fraction.elim [] fun digits => '.' :: digitsText digits

def unsignedText : List Char :=
  digitsText f.whole ++ (f.fractionText ++ exponentText f.exponent)

def text : List Char := signText f.sign ++ f.unsignedText

def fractionDigits : List (Fin 10) := f.fraction.getD []

/-- The number in front of the exponent, without its sign. -/
def mantissa : ℚ :=
  digitsValue f.whole + digitsValue f.fractionDigits / 10 ^ f.fractionDigits.length

/-- The exponent without its sign. -/
def power : ℕ := exponentSize f.exponent

def isFloat : Bool := f.fraction.isSome || f.exponent.isSome

/-- The value for an exponent of this size. -/
def valueFor (power : ℕ) : ℚ :=
  (if f.sign = some .minus then -1 else 1) * (f.mantissa * exponentFactor f.exponent power)

/-- The decimal value of the text. -/
def value : ℚ := f.valueFor f.power

def numberId : NumberId :=
  if f.isFloat then .float else if f.sign = some .minus then .int else .uint

/-- The token for an exponent of this size. -/
def tokenFor (power : ℕ) : NumberToken := ⟨f.text, f.numberId, f.valueFor power⟩

end NumberForm

/-! ## groups of digits -/

variable (d : Fin 10)

theorem isNumber_digitChar : isNumber d.val.digitChar = true := by
  revert d
  decide

theorem digit_digitChar : digit d.val.digitChar = d := by
  revert d
  decide

theorem exists_digitChar {c : Char} (h : isNumber c = true) :
    ∃ d : Fin 10, d.val.digitChar = c := by
  have hbounds : 48 ≤ c.toNat ∧ c.toNat ≤ 57 := by
    simpa [isNumber, Char.le_def, UInt32.le_iff_toNat_le] using h
  refine ⟨⟨c.toNat - 48, by omega⟩, Char.toNat_inj.mp ?_⟩
  rw [Nat.toNat_digitChar_of_lt_ten (by simp only; omega)]
  simp only
  omega

/-- The text does not begin with a digit. -/
def Stops (r : List Char) : Prop := ∀ c ∈ r.head?, isNumber c = false

/-- Every text begins with a group of digits, possibly an empty one. -/
theorem exists_digits (t : List Char) : ∃ digits r, t = digitsText digits ++ r ∧ Stops r := by
  induction t with
  | nil => exact ⟨[], [], rfl, by simp [Stops]⟩
  | cons c t ih =>
    by_cases hc : isNumber c = true
    · obtain ⟨digits, r, rfl, hr⟩ := ih
      obtain ⟨d, rfl⟩ := exists_digitChar hc
      exact ⟨d :: digits, r, rfl, hr⟩
    · exact ⟨[], c :: t, rfl, by simpa [Stops] using hc⟩

theorem digitChar_inj {d d' : Fin 10} (h : d.val.digitChar = d'.val.digitChar) : d = d' := by
  have := congrArg digit h
  rw [digit_digitChar, digit_digitChar] at this
  exact Fin.ext this

theorem not_stops_cons {d : Fin 10} {r : List Char} : ¬ Stops (d.val.digitChar :: r) := by
  intro h
  have := h _ rfl
  rw [isNumber_digitChar] at this
  exact absurd this (by decide)

/-- A text has one group of digits at its beginning. -/
theorem digitsText_append_inj {digits digits' : List (Fin 10)} {r r' : List Char} (hr : Stops r)
    (hr' : Stops r') (h : digitsText digits ++ r = digitsText digits' ++ r') :
    digits = digits' ∧ r = r' := by
  induction digits generalizing digits' with
  | nil =>
    cases digits' with
    | nil => exact ⟨rfl, h⟩
    | cons d digits' =>
      obtain rfl : r = d.val.digitChar :: (digitsText digits' ++ r') := h
      exact absurd hr not_stops_cons
  | cons d digits ih =>
    cases digits' with
    | nil =>
      obtain rfl : d.val.digitChar :: (digitsText digits ++ r) = r' := h
      exact absurd hr' not_stops_cons
    | cons d' digits' =>
      obtain ⟨hd, htail⟩ := List.cons.inj h
      obtain ⟨rfl, rfl⟩ := ih htail
      exact ⟨by rw [digitChar_inj hd], rfl⟩

theorem digitsValue_foldl (n : ℕ) (digits : List (Fin 10)) :
    digits.foldl (fun n d => 10 * n + d.val) n = n * 10 ^ digits.length + digitsValue digits := by
  induction digits generalizing n with
  | nil => simp [digitsValue]
  | cons d digits ih =>
    simp only [digitsValue, foldl_cons, length_cons] at ih ⊢
    rw [ih, ih (10 * 0 + d.val)]
    ring

theorem digitsValue_cons (digits : List (Fin 10)) :
    digitsValue (d :: digits) = d * 10 ^ digits.length + digitsValue digits := by
  rw [digitsValue, foldl_cons, digitsValue_foldl]
  simp

/-! ## the loops -/

section

variable {r : List Char} (hr : Stops r)
include hr

theorem wholePart_digits (num : ℚ) (digits : List (Fin 10)) :
    wholePart num (digitsText digits ++ r) =
      (num * 10 ^ digits.length + digitsValue digits, r) := by
  induction digits generalizing num with
  | nil =>
    cases r with
    | nil => simp [digitsText, wholePart, digitsValue]
    | cons c r => simp [digitsText, wholePart, digitsValue, hr c rfl]
  | cons d digits ih =>
    have hstep : wholePart num (digitsText (d :: digits) ++ r) =
        wholePart (num * 10 + d) (digitsText digits ++ r) := by
      simp [digitsText, wholePart, isNumber_digitChar, digit_digitChar]
    rw [hstep, ih, digitsValue_cons, length_cons]
    push_cast
    congr 1
    ring

theorem fractionPart_digits (num : ℚ) {tmp : ℚ} (htmp : tmp ≠ 0) (digits : List (Fin 10)) :
    fractionPart num tmp (digitsText digits ++ r) =
      (num + digitsValue digits * 10 / (tmp * 10 ^ digits.length), r) := by
  induction digits generalizing num tmp with
  | nil =>
    cases r with
    | nil => simp [digitsText, fractionPart, digitsValue]
    | cons c r => simp [digitsText, fractionPart, digitsValue, hr c rfl]
  | cons d digits ih =>
    have hstep : fractionPart num tmp (digitsText (d :: digits) ++ r) =
        fractionPart (num + d / tmp) (tmp * 10) (digitsText digits ++ r) := by
      simp [digitsText, fractionPart, isNumber_digitChar, digit_digitChar]
    rw [hstep, ih _ (mul_ne_zero htmp (by norm_num)), digitsValue_cons, length_cons]
    push_cast
    congr 1
    field_simp
    ring

theorem powerPart_digits (power : ℕ) (digits : List (Fin 10)) :
    powerPart (power % 2 ^ 32) (digitsText digits ++ r) =
      ((power * 10 ^ digits.length + digitsValue digits) % 2 ^ 32, r) := by
  induction digits generalizing power with
  | nil =>
    cases r with
    | nil => simp [digitsText, powerPart, digitsValue]
    | cons c r => simp [digitsText, powerPart, digitsValue, hr c rfl]
  | cons d digits ih =>
    have hstep : powerPart (power % 2 ^ 32) (digitsText (d :: digits) ++ r) =
        powerPart ((power * 10 + d) % 2 ^ 32) (digitsText digits ++ r) := by
      simp [digitsText, powerPart, isNumber_digitChar, digit_digitChar, Nat.add_mod, Nat.mul_mod]
    rw [hstep, ih, digitsValue_cons, length_cons]
    congr 2
    ring

end

theorem applyPower_eq (minusPower : Bool) (power : ℕ) (num : ℚ) :
    applyPower minusPower power num =
      num * (if minusPower then (10 ^ power)⁻¹ else 10 ^ power) := by
  induction power generalizing num with
  | zero => cases minusPower <;> simp [applyPower]
  | succ power ih =>
    rw [applyPower, ih]
    cases minusPower with
    | true => simp [pow_succ]; ring
    | false => simp [pow_succ]; ring

/-! ## signs -/

/-- The text does not begin with a sign. -/
def Unsigned (u : List Char) : Prop := ∀ c ∈ u.head?, c ≠ '+' ∧ c ≠ '-'

theorem takeSign_signText (sign : Option Sign) {u : List Char} (hu : Unsigned u) :
    takeSign (signText sign ++ u) = (decide (sign = some .minus), u) := by
  match sign with
  | some .plus => rfl
  | some .minus => rfl
  | none =>
    match u with
    | [] => rfl
    | c :: u =>
      obtain ⟨hplus, hminus⟩ := hu c rfl
      show takeSign (c :: u) = (false, c :: u)
      unfold takeSign
      split
      · next heq => exact absurd (List.cons.inj heq).1 hplus
      · next heq => exact absurd (List.cons.inj heq).1 hminus
      · rfl

/-- Every text begins with a sign, possibly none. -/
theorem exists_sign (t : List Char) :
    ∃ sign u, t = signText sign ++ u ∧ takeSign t = (decide (sign = some .minus), u) := by
  unfold takeSign
  split
  · next u => exact ⟨some .plus, u, rfl, rfl⟩
  · next u => exact ⟨some .minus, u, rfl, rfl⟩
  · exact ⟨none, t, rfl, rfl⟩

variable {digits : List (Fin 10)}

theorem unsigned_digits (h : digits ≠ []) (r : List Char) : Unsigned (digitsText digits ++ r) := by
  obtain ⟨d, digits, rfl⟩ := exists_cons_of_ne_nil h
  have hchar : ∀ d : Fin 10, d.val.digitChar ≠ '+' ∧ d.val.digitChar ≠ '-' := by decide
  intro c hc
  obtain rfl : d.val.digitChar = c := some.inj hc
  exact hchar d

theorem digitsText_ne_nil (h : digits ≠ []) : digitsText digits ≠ [] := by
  simpa [digitsText] using h

theorem stops_nil : Stops [] := by simp [Stops]

/-! ## what is accepted -/

section

variable {org : List Char} {num : ℚ} {minus isFloat : Bool} {tkn : List Char} {token : NumberToken}

theorem checkPower_eq_set_iff :
    checkPower org num minus tkn = .set token ↔
      ∃ sign digits, digits ≠ [] ∧ tkn = signText sign ++ digitsText digits ∧
        digitsValue digits % 2 ^ 32 ≤ 100 ∧
        token = setNumber org
          (applyPower (sign = some .minus) (digitsValue digits % 2 ^ 32) num) minus true := by
  constructor
  · intro h
    obtain ⟨sign, u, rfl, hsign⟩ := exists_sign tkn
    obtain ⟨digits, r, rfl, hr⟩ := exists_digits u
    have hpower := powerPart_digits hr 0 digits
    simp only [Nat.zero_mod, zero_mul, zero_add] at hpower
    unfold checkPower at h
    simp only [hsign, hpower] at h
    split at h
    · exact CheckedNumber.noConfusion h
    split at h
    · exact CheckedNumber.noConfusion h
    next hne =>
    split at h
    · exact CheckedNumber.noConfusion h
    next hnil =>
    split at h
    · exact CheckedNumber.noConfusion h
    next hle =>
    obtain rfl : r = [] := by simpa using hnil
    refine ⟨sign, digits, ?_, by simp, by omega, (CheckedNumber.set.inj h).symm⟩
    rintro rfl
    exact hne rfl
  · rintro ⟨sign, digits, hne, rfl, hle, rfl⟩
    have hu := unsigned_digits hne []
    rw [append_nil] at hu
    have hsign := takeSign_signText sign hu
    have hpower := powerPart_digits stops_nil 0 digits
    simp only [Nat.zero_mod, zero_mul, zero_add, append_nil] at hpower
    have hne' := digitsText_ne_nil hne
    unfold checkPower
    rw [if_neg (by simp [hne'])]
    simp only [hsign, hpower, if_neg hne']
    rw [if_neg (by simp), if_neg (by omega)]

/-- Behind the point an exponent may follow. -/
theorem checkMark_eq_set_iff :
    checkMark org num minus isFloat tkn = .set token ↔
      ∃ exponent, tkn = exponentText exponent ∧ exponentSize exponent % 2 ^ 32 ≤ 100 ∧
        token = setNumber org (num * exponentFactor exponent (exponentSize exponent % 2 ^ 32))
          minus (isFloat || exponent.isSome) := by
  constructor
  · intro h
    cases tkn with
    | nil =>
      obtain rfl := CheckedNumber.set.inj h
      exact ⟨none, rfl, Nat.zero_le _, by simp [exponentFactor, exponentSize]⟩
    | cons c tkn =>
      rw [checkMark] at h
      by_cases hmark : c ≠ 'e' ∧ c ≠ 'E'
      · rw [if_pos hmark] at h
        exact CheckedNumber.noConfusion h
      rw [if_neg hmark] at h
      obtain ⟨sign, digits, hne, rfl, hle, rfl⟩ := checkPower_eq_set_iff.mp h
      have hupper : c = if decide (c = 'E') then 'E' else 'e' := by
        by_cases hE : c = 'E'
        · simp [hE]
        · have : c = 'e' := by
            by_contra he
            exact hmark ⟨he, hE⟩
          simp [this]
      refine ⟨some ⟨decide (c = 'E'), sign, digits, hne⟩, ?_, hle, ?_⟩
      · show c :: _ = _ :: _
        rw [← hupper]
      · simp [applyPower_eq, exponentFactor, exponentSize]
  · rintro ⟨exponent, rfl, hle, rfl⟩
    cases exponent with
    | none => simp [exponentText, checkMark, exponentFactor, exponentSize]
    | some e =>
      have hmark : ∀ {c}, (c = if e.upper then 'E' else 'e') → ¬ (c ≠ 'e' ∧ c ≠ 'E') := by
        rintro c rfl
        cases e.upper <;> simp
      show checkMark org num minus isFloat (_ :: _) = _
      rw [checkMark, if_neg (hmark rfl)]
      refine checkPower_eq_set_iff.mpr ⟨e.sign, e.digits, e.digits_ne_nil, rfl, hle, ?_⟩
      simp [applyPower_eq, exponentFactor, exponentSize]

end

theorem stops_exponentText (exponent : Option Exponent) : Stops (exponentText exponent) := by
  cases exponent with
  | none => exact stops_nil
  | some e =>
    intro c hc
    obtain rfl := some.inj hc
    cases e.upper <;> rfl

namespace NumberForm

variable (f : NumberForm)

theorem stops_rest : Stops (f.fractionText ++ exponentText f.exponent) := by
  unfold fractionText
  cases f.fraction with
  | none => exact stops_exponentText f.exponent
  | some digits => exact fun c hc => by obtain rfl := some.inj hc; rfl

theorem unsigned_unsignedText : Unsigned f.unsignedText := by
  by_cases hwhole : f.whole = []
  · have hfraction := f.has_part.resolve_left (not_not_intro hwhole)
    obtain ⟨digits, hdigits⟩ := ne_none_iff_exists'.mp hfraction
    intro c hc
    simp [unsignedText, fractionText, hwhole, hdigits, digitsText] at hc
    subst hc
    decide
  · exact unsigned_digits hwhole _

theorem unsignedText_ne_nil : f.unsignedText ≠ [] := by
  intro h
  simp only [unsignedText, append_eq_nil_iff] at h
  rcases f.has_part with hwhole | hfraction
  · exact digitsText_ne_nil hwhole h.1
  · obtain ⟨digits, hdigits⟩ := ne_none_iff_exists'.mp hfraction
    simp [fractionText, hdigits] at h

theorem setNumber_eq (power : ℕ) :
    setNumber f.text (f.mantissa * exponentFactor f.exponent power) (f.sign = some .minus)
      f.isFloat = f.tokenFor power := by
  unfold setNumber tokenFor numberId valueFor
  by_cases hsign : f.sign = some .minus <;> simp [hsign]

theorem mantissa_of_none {f : NumberForm} (h : f.fraction = none) :
    f.mantissa = digitsValue f.whole := by
  simp [mantissa, fractionDigits, h, digitsValue]

theorem mantissa_of_some {f : NumberForm} {digits : List (Fin 10)} (h : f.fraction = some digits) :
    f.mantissa = digitsValue f.whole + digitsValue digits * 10 / (10 * 10 ^ digits.length) := by
  rw [mantissa, fractionDigits, h, getD_some, mul_comm (10 : ℚ) (10 ^ _),
    mul_div_mul_right _ _ (by norm_num)]

end NumberForm

open NumberForm

/-- The forms that are accepted, and the tokens set for them: the exponent is at most 100 when
counted in 32 bits. -/
theorem checkAsNumber_eq_iff {org : List Char} {token : NumberToken} :
    checkAsNumber org = .set token ↔
      ∃ f : NumberForm, f.text = org ∧ f.power % 2 ^ 32 ≤ 100 ∧
        token = f.tokenFor (f.power % 2 ^ 32) := by
  constructor
  · intro h
    obtain ⟨sign, tkn, horg, hsign⟩ := exists_sign org
    obtain ⟨whole, r, rfl, hr⟩ := exists_digits tkn
    have hwhole := wholePart_digits hr 0 whole
    rw [zero_mul, zero_add] at hwhole
    unfold checkAsNumber at h
    simp only [hsign, hwhole] at h
    split at h
    · exact CheckedNumber.noConfusion h
    next hne =>
    split at h
    · -- digits alone
      have hpart : whole ≠ [] := by
        rintro rfl
        exact hne rfl
      let f : NumberForm := ⟨sign, whole, none, none, .inl hpart⟩
      have htext : f.text = org := by
        rw [horg]
        simp [f, text, unsignedText, fractionText, exponentText]
      refine ⟨f, htext, Nat.zero_le _, ?_⟩
      rw [← f.setNumber_eq, htext, mantissa_of_none (f := f) rfl, ← CheckedNumber.set.inj h]
      simp [f, exponentFactor, power, exponentSize, isFloat]
    · -- a point behind the digits
      next tkn' =>
      obtain ⟨digits, r', rfl, hr'⟩ := exists_digits tkn'
      rw [fractionPart_digits hr' _ (by norm_num)] at h
      obtain ⟨exponent, rfl, hle, htoken⟩ := checkMark_eq_set_iff.mp h
      let f : NumberForm := ⟨sign, whole, some digits, exponent, .inr (some_ne_none _)⟩
      have htext : f.text = org := by
        rw [horg]
        simp [f, text, unsignedText, fractionText]
      refine ⟨f, htext, hle, ?_⟩
      rw [← f.setNumber_eq, htext, mantissa_of_some (f := f) rfl, htoken]
      simp [f, power, isFloat]
    · -- an exponent behind the digits
      next c part _ =>
      split at h
      · exact CheckedNumber.noConfusion h
      next hpointer =>
      have hpart : whole ≠ [] := by
        rintro rfl
        exact hpointer rfl
      obtain ⟨exponent, hexponent, hle, htoken⟩ := checkMark_eq_set_iff.mp h
      let f : NumberForm := ⟨sign, whole, none, exponent, .inl hpart⟩
      have htext : f.text = org := by
        rw [horg, hexponent]
        simp [f, text, unsignedText, fractionText]
      refine ⟨f, htext, hle, ?_⟩
      rw [← f.setNumber_eq, htext, mantissa_of_none (f := f) rfl, htoken]
      simp [f, power, isFloat]
  · rintro ⟨f, rfl, hle, rfl⟩
    have hsign : takeSign f.text = (decide (f.sign = some .minus), f.unsignedText) :=
      takeSign_signText f.sign f.unsigned_unsignedText
    have hwhole := wholePart_digits f.stops_rest 0 f.whole
    rw [zero_mul, zero_add] at hwhole
    rw [← f.setNumber_eq]
    unfold checkAsNumber
    simp only [hsign, if_neg f.unsignedText_ne_nil]
    rw [unsignedText, hwhole]
    cases hfraction : f.fraction with
    | some digits =>
      have hfractionPart := fractionPart_digits (stops_exponentText f.exponent)
        (digitsValue f.whole) (show (10 : ℚ) ≠ 0 by norm_num) digits
      simp only [fractionText, hfraction, elim_some, cons_append, hfractionPart]
      refine checkMark_eq_set_iff.mpr ⟨f.exponent, rfl, hle, ?_⟩
      rw [mantissa_of_some hfraction]
      simp [isFloat, hfraction, power]
    | none =>
      simp only [fractionText, hfraction, elim_none, nil_append]
      rw [mantissa_of_none hfraction]
      cases hexponent : f.exponent with
      | none =>
        simp [exponentText, exponentFactor, isFloat, hfraction, hexponent, power, exponentSize]
      | some e =>
        have hwhole_ne : digitsText f.whole ≠ [] :=
          digitsText_ne_nil (f.has_part.resolve_right (not_not_intro hfraction))
        have hpointer : ∀ r : List Char, r ≠ digitsText f.whole ++ r := fun r heq =>
          hwhole_ne (self_eq_append_left.mp heq)
        have hmark : checkMark f.text (digitsValue f.whole) (decide (f.sign = some .minus)) false
            (exponentText (some e)) = .set (setNumber f.text (digitsValue f.whole *
              exponentFactor (some e) (f.power % 2 ^ 32)) (decide (f.sign = some .minus))
              f.isFloat) := by
          refine checkMark_eq_set_iff.mpr ⟨some e, rfl, ?_, ?_⟩
          · rwa [power, hexponent] at hle
          · simp [isFloat, hfraction, hexponent, power]
        rw [← hmark]
        obtain ⟨c, part, hc, htext⟩ : ∃ c part, c ≠ '.' ∧ exponentText (some e) = c :: part :=
          ⟨_, _, by cases e.upper <;> decide, rfl⟩
        rw [htext]
        split
        · next heq => exact absurd heq (cons_ne_nil _ _)
        · next heq => exact absurd (List.cons.inj heq).1 hc
        · next heq =>
          obtain ⟨rfl, rfl⟩ := List.cons.inj heq
          rw [if_neg (hpointer _)]

/-! ## one form for each text -/

theorem signText_append_inj {sign sign' : Option Sign} {u u' : List Char} (hu : Unsigned u)
    (hu' : Unsigned u') (h : signText sign ++ u = signText sign' ++ u') :
    sign = sign' ∧ u = u' := by
  have htake := takeSign_signText sign hu
  rw [h, takeSign_signText sign' hu'] at htake
  obtain rfl : u' = u := (Prod.mk.inj htake).2
  have hsign : signText sign = signText sign' := append_cancel_right h
  refine ⟨?_, rfl⟩
  rcases sign with _ | _ | _ <;> rcases sign' with _ | _ | _ <;>
    simp [signText, Sign.char] at hsign ⊢

variable {digits : List (Fin 10)}

theorem digitsText_inj {digits' : List (Fin 10)} (h : digitsText digits = digitsText digits') :
    digits = digits' := by
  have happend : digitsText digits ++ [] = digitsText digits' ++ [] := by rw [h]
  exact (digitsText_append_inj stops_nil stops_nil happend).1

theorem exponentText_inj {exponent exponent' : Option Exponent}
    (h : exponentText exponent = exponentText exponent') : exponent = exponent' := by
  match exponent, exponent' with
  | none, none => rfl
  | none, some _ | some _, none => exact absurd h (by simp [exponentText, Exponent.text])
  | some ⟨upper, sign, digits, hne⟩, some ⟨upper', sign', digits', hne'⟩ =>
    obtain ⟨hmark, hrest⟩ := List.cons.inj h
    have hu := unsigned_digits hne []
    have hu' := unsigned_digits hne' []
    rw [append_nil] at hu hu'
    obtain ⟨rfl, hdigits⟩ := signText_append_inj hu hu' hrest
    obtain rfl := digitsText_inj hdigits
    have hupper : upper = upper' := by
      cases upper <;> cases upper' <;> simp_all
    rw [hupper]

theorem exponentText_ne_point (exponent : Option Exponent) (r : List Char) :
    exponentText exponent ≠ '.' :: r := by
  intro h
  cases exponent with
  | none => exact absurd h (cons_ne_nil _ _).symm
  | some e =>
    have := (List.cons.inj h).1
    cases he : e.upper <;> simp [he] at this

theorem NumberForm.text_inj {f g : NumberForm} (h : f.text = g.text) : f = g := by
  obtain ⟨hsign, hunsigned⟩ :=
    signText_append_inj f.unsigned_unsignedText g.unsigned_unsignedText h
  obtain ⟨hwhole, hrest⟩ := digitsText_append_inj f.stops_rest g.stops_rest hunsigned
  have hparts : f.fraction = g.fraction ∧ f.exponent = g.exponent := by
    unfold fractionText at hrest
    match hf : f.fraction, hg : g.fraction with
    | none, none =>
      rw [hf, hg] at hrest
      exact ⟨rfl, exponentText_inj hrest⟩
    | some digits, some digits' =>
      rw [hf, hg] at hrest
      obtain ⟨rfl, hexponent⟩ := digitsText_append_inj (stops_exponentText _)
        (stops_exponentText _) (List.cons.inj hrest).2
      exact ⟨rfl, exponentText_inj hexponent⟩
    | none, some digits =>
      rw [hf, hg] at hrest
      exact absurd hrest (exponentText_ne_point _ _)
    | some digits, none =>
      rw [hf, hg] at hrest
      exact absurd hrest.symm (exponentText_ne_point _ _)
  cases f
  cases g
  simp_all

/-! ## the token of a literal -/

/-- The text is taken for a number just if it is a literal with an exponent of at most 100, and the
token says what the literal says. -/
def ReadRight (text : List Char) : Prop :=
  ∀ token, checkAsNumber text = .set token ↔
    ∃ l : Literal, l.text = text ∧ l.power ≤ 100 ∧ token = l.tokenFor l.power

/-- The text has no point without digits behind it, and no exponent above 100 that 32 bits show as
one of at most 100. -/
def MeetsNumber (text : List Char) : Prop :=
  ∀ f : NumberForm, f.text = text → f.power % 2 ^ 32 ≤ 100 →
    f.fraction ≠ some [] ∧ f.power ≤ 100

theorem readRight_iff (text : List Char) : ReadRight text ↔ MeetsNumber text := by
  constructor
  · intro hright f htext hle
    obtain ⟨l, hl, hpower, -⟩ := (hright _).mp (checkAsNumber_eq_iff.mpr ⟨f, htext, hle, rfl⟩)
    obtain rfl : l.toNumberForm = f := NumberForm.text_inj (hl.trans htext.symm)
    exact ⟨l.fraction_ne_nil, hpower⟩
  · intro hmeets token
    rw [checkAsNumber_eq_iff]
    constructor
    · rintro ⟨f, htext, hle, rfl⟩
      obtain ⟨hfraction, hpower⟩ := hmeets f htext hle
      refine ⟨⟨f, hfraction⟩, htext, hpower, ?_⟩
      rw [Nat.mod_eq_of_lt (by omega)]
    · rintro ⟨l, htext, hpower, rfl⟩
      have hmod : l.power % 2 ^ 32 = l.power := Nat.mod_eq_of_lt (by omega)
      exact ⟨l.toNumberForm, htext, by rwa [hmod], by rw [hmod]⟩

/-! ## cutting a number out of a line -/

/-- `for (; p(*start); ++start, sz++)` -/
def countWhile (p : Char → Bool) (sz : ℕ) : List Char → ℕ × List Char
  | [] => (sz, [])
  | c :: start => if p c then countWhile p (sz + 1) start else (sz, c :: start)

/-- `if (*start == '+' || *start == '-') { sz++; start++; }` -/
def countSign (sz : ℕ) (start : List Char) : ℕ × List Char :=
  match start with
  | c :: start' => if c = '+' ∨ c = '-' then (sz + 1, start') else (sz, start)
  | [] => (sz, [])

def isNumberOrPoint (c : Char) : Bool := isNumber c || c == '.'

/-- `CheckNumber` from the `e` on. -/
def checkNumberPower (sz : ℕ) (start : List Char) : ℕ × List Char :=
  match start with
  | [] => (sz, [])
  | c :: start' =>
      if c = 'e' ∨ c = 'E' then
        let (sz, start) := countSign (sz + 1) start'
        countWhile isNumber sz start
      else (sz, start)

/-- `CheckNumber` from the digits on. -/
def checkNumberDigits (sz : ℕ) (start : List Char) : ℕ × List Char :=
  let (sz, start) := countWhile isNumberOrPoint sz start
  checkNumberPower sz start

/-- `srcfile_node::CheckNumber`: the length of the number at the current position of a line and the
position behind it. -/
def checkNumber (curPos : List Char) : Option (ℕ × List Char) :=
  let (sz, start) := countSign 0 curPos
  match start with
  | [] => none
  | c :: _ =>
      if ¬ isNumberOrPoint c then none
      else some (checkNumberDigits sz start)

theorem countWhile_eq (p : Char → Bool) (sz : ℕ) (start : List Char) :
    countWhile p sz start = (sz + (start.takeWhile p).length, start.dropWhile p) := by
  induction start generalizing sz with
  | nil => rfl
  | cons c start ih =>
    by_cases hc : p c = true
    · simp [countWhile, hc, ih, Nat.add_comm, Nat.add_left_comm]
    · simp [countWhile, hc]

theorem countWhile_append {p : Char → Bool} {front : List Char} (h : ∀ c ∈ front, p c = true)
    (sz : ℕ) (rest : List Char) :
    countWhile p sz (front ++ rest) = countWhile p (sz + front.length) rest := by
  simp only [countWhile_eq, takeWhile_append_of_pos h, dropWhile_append_of_pos h,
    length_append, Nat.add_assoc]

variable {rest : List Char}

/-- Nothing is counted just if the text does not go on. -/
theorem countWhile_eq_self_iff {p : Char → Bool} {sz : ℕ} :
    countWhile p sz rest = (sz, rest) ↔ ∀ c ∈ rest.head?, p c = false := by
  cases rest with
  | nil => simp [countWhile]
  | cons c rest =>
    by_cases hc : p c = true
    · rw [countWhile_eq, takeWhile_cons_of_pos hc]
      simp [hc]
    · simp [countWhile, hc]

theorem countSign_signText (sz : ℕ) (sign : Option Sign) {u : List Char} (hu : Unsigned u) :
    countSign sz (signText sign ++ u) = (sz + (signText sign).length, u) := by
  match sign with
  | some .plus | some .minus => rfl
  | none =>
    cases u with
    | nil => rfl
    | cons c u =>
      have hc := hu c rfl
      simp [signText, countSign, hc.1, hc.2]

theorem countSign_fst_ge (sz : ℕ) (start : List Char) : sz ≤ (countSign sz start).1 := by
  unfold countSign
  split
  · split <;> simp
  · exact le_rfl

theorem checkNumberPower_fst_ge (sz : ℕ) (start : List Char) :
    sz ≤ (checkNumberPower sz start).1 := by
  unfold checkNumberPower
  split
  · exact le_rfl
  · split
    · next start' _ =>
      have := countSign_fst_ge (sz + 1) start'
      simp only [countWhile_eq]
      omega
    · exact le_rfl

theorem checkNumberPower_eq_self_iff {sz : ℕ} :
    checkNumberPower sz rest = (sz, rest) ↔ ∀ c ∈ rest.head?, c ≠ 'e' ∧ c ≠ 'E' := by
  cases rest with
  | nil => simp [checkNumberPower]
  | cons c rest =>
    by_cases hc : c = 'e' ∨ c = 'E'
    · have hge := countSign_fst_ge (sz + 1) rest
      have hne : checkNumberPower sz (c :: rest) ≠ (sz, c :: rest) := by
        intro h
        have := congrArg Prod.fst h
        simp only [checkNumberPower, if_pos hc, countWhile_eq] at this
        omega
      refine iff_of_false hne fun h => ?_
      have := h c rfl
      tauto
    · have hne := not_or.mp hc
      exact iff_of_true (by simp [checkNumberPower, hc]) (by simpa using hne)

/-- The text goes on like the literal in front of it. -/
def Continues (l : Literal) (rest : List Char) : Prop :=
  ∃ c ∈ rest.head?, isNumber c = true ∨ l.exponent = none ∧ (c = '.' ∨ c = 'e' ∨ c = 'E')

theorem isNumber_of_mem_digitsText {c : Char} (h : c ∈ digitsText digits) : isNumber c = true := by
  obtain ⟨d, -, rfl⟩ := mem_map.mp h
  exact isNumber_digitChar d

/-- The digits and the point of a form. -/
theorem isNumberOrPoint_of_mem {f : NumberForm} {c : Char}
    (h : c ∈ digitsText f.whole ++ f.fractionText) : isNumberOrPoint c = true := by
  unfold isNumberOrPoint
  rcases mem_append.mp h with hwhole | hfraction
  · simp [isNumber_of_mem_digitsText hwhole]
  · unfold NumberForm.fractionText at hfraction
    cases hf : f.fraction with
    | none => simp [hf] at hfraction
    | some digits =>
      rw [hf] at hfraction
      rcases mem_cons.mp hfraction with rfl | hdigits
      · rfl
      · simp [isNumber_of_mem_digitsText hdigits]

/-- There is a digit or a point. -/
theorem NumberForm.body_ne_nil (f : NumberForm) : digitsText f.whole ++ f.fractionText ≠ [] := by
  rcases f.has_part with hwhole | hfraction
  · simp [digitsText_ne_nil hwhole]
  · obtain ⟨digits, hdigits⟩ := ne_none_iff_exists'.mp hfraction
    simp [NumberForm.fractionText, hdigits]

/-- The sign, the digits and the point are always taken; what follows decides. -/
theorem checkNumber_text (f : NumberForm) (rest : List Char) :
    checkNumber (f.text ++ rest) = some (checkNumberDigits
      ((signText f.sign).length + (digitsText f.whole ++ f.fractionText).length)
      (exponentText f.exponent ++ rest)) := by
  obtain ⟨c, body, hc⟩ := exists_cons_of_ne_nil f.body_ne_nil
  have hpoint : isNumberOrPoint c = true :=
    isNumberOrPoint_of_mem (f := f) (hc ▸ mem_cons_self)
  have htext : f.text ++ rest = signText f.sign ++
      (digitsText f.whole ++ f.fractionText ++ (exponentText f.exponent ++ rest)) := by
    simp [NumberForm.text, NumberForm.unsignedText]
  have hunsigned : Unsigned
      (digitsText f.whole ++ f.fractionText ++ (exponentText f.exponent ++ rest)) := by
    rw [hc]
    intro c' hc'
    obtain rfl := some.inj hc'
    constructor <;> rintro rfl <;> exact absurd hpoint (by decide)
  have hmem : ∀ c ∈ digitsText f.whole ++ f.fractionText, isNumberOrPoint c = true :=
    fun c => isNumberOrPoint_of_mem
  have hcount := countWhile_append hmem (signText f.sign).length (exponentText f.exponent ++ rest)
  rw [htext, checkNumber, countSign_signText 0 f.sign hunsigned, Nat.zero_add, checkNumberDigits,
    ← hcount, hc]
  simp [hpoint, checkNumberDigits]

/-- Nothing is taken beyond a number without exponent. -/
theorem checkNumberDigits_eq_self_iff {n : ℕ} :
    checkNumberDigits n rest = (n, rest) ↔
      ∀ c ∈ rest.head?, isNumberOrPoint c = false ∧ c ≠ 'e' ∧ c ≠ 'E' := by
  unfold checkNumberDigits
  by_cases hpoint : ∀ c ∈ rest.head?, isNumberOrPoint c = false
  · simp only [countWhile_eq_self_iff.mpr hpoint, checkNumberPower_eq_self_iff]
    exact ⟨fun h c hc => ⟨hpoint c hc, h c hc⟩, fun h c hc => (h c hc).2⟩
  · refine iff_of_false (fun h => ?_) (fun h => hpoint fun c hc => (h c hc).1)
    -- what is taken is not given back
    match rest with
    | [] => exact hpoint fun c hc => absurd hc (by simp)
    | c :: rest =>
      have hc : isNumberOrPoint c = true := by simpa using hpoint
      have hge := checkNumberPower_fst_ge (countWhile isNumberOrPoint n (c :: rest)).1
        (countWhile isNumberOrPoint n (c :: rest)).2
      have hfst := congrArg Prod.fst h
      simp only [countWhile_eq, takeWhile_cons_of_pos hc, length_cons] at hge hfst
      omega

theorem checkNumberDigits_exponent (n : ℕ) (e : Exponent) (rest : List Char) :
    checkNumberDigits n (e.text ++ rest) = countWhile isNumber (n + e.text.length) rest := by
  have hmark : ∀ c ∈ (e.text ++ rest).head?, isNumberOrPoint c = false := by
    intro c hc
    obtain rfl := some.inj hc
    cases e.upper <;> rfl
  have hsign := countSign_signText (n + 1) e.sign (unsigned_digits e.digits_ne_nil rest)
  have hmem : ∀ c ∈ digitsText e.digits, isNumber c = true :=
    fun c => isNumber_of_mem_digitsText
  have hdigits := countWhile_append hmem (n + 1 + (signText e.sign).length) rest
  have hlength : n + e.text.length =
      n + 1 + (signText e.sign).length + (digitsText e.digits).length := by
    simp only [Exponent.text, length_cons, length_append]
    omega
  rw [checkNumberDigits, countWhile_eq_self_iff.mpr hmark, hlength, ← hdigits]
  cases hupper : e.upper <;> simp [Exponent.text, hupper, checkNumberPower, hsign]

/-- A literal is taken whole and alone just if the line does not go on like it. -/
theorem checkNumber_eq_iff (l : Literal) (rest : List Char) :
    checkNumber (l.text ++ rest) = some (l.text.length, rest) ↔ ¬ Continues l rest := by
  have hlength : l.text.length = (signText l.sign).length +
      (digitsText l.whole ++ l.fractionText).length + (exponentText l.exponent).length := by
    simp only [NumberForm.text, NumberForm.unsignedText, length_append]
    omega
  rw [checkNumber_text, some_inj, hlength]
  generalize (signText l.sign).length + (digitsText l.whole ++ l.fractionText).length = n
  cases hexponent : l.exponent with
  | none =>
    show checkNumberDigits n rest = (n, rest) ↔ _
    rw [checkNumberDigits_eq_self_iff]
    simp only [Continues, hexponent, isNumberOrPoint]
    grind
  | some e =>
    show checkNumberDigits n (e.text ++ rest) = (n + e.text.length, rest) ↔ _
    rw [checkNumberDigits_exponent, countWhile_eq_self_iff]
    simp only [Continues, hexponent]
    grind

end V2I.Rpcc
