import V2I.Rpcc.Expression

/-!
# V2I.Rpcc.Grammar

What the evaluator is for: the usual grammar of expressions, with its levels of factors, terms
and expressions, the usual value of an expression, the entries that its operators and numbers need
on two stacks, and its value in integers. The evaluator's own calculation is not used here, but for
its condition (`Expr.Divides`).
-/

namespace V2I.Rpcc

open Double

variable {F : Type}

/-- `+` and `-` -/
def Symbol.additive : Symbol → Bool
  | .add | .sub => true
  | _ => false

/-- `*` and `/` -/
def Symbol.multiplicative : Symbol → Bool
  | .mul | .div => true
  | _ => false

theorem Symbol.not_additive {op : Symbol} (h : op.multiplicative = true) : op.additive = false := by
  cases op <;> first | rfl | cases h

inductive Expr (F : Type) where
  | number (eId : NumberId) (value : F)
  | minus (eId : NumberId) (value : F)
  | bracket (e : Expr F)
  | binary (op : Symbol) (a b : Expr F)

inductive Level where
  | factor
  | term
  | expr

/-- The tokens of an expression, by its level. -/
inductive Derives : Level → List (Token F) → Expr F → Prop
  | number (eId : NumberId) (value : F) : Derives .factor [.number eId value] (.number eId value)
  | minus (eId : NumberId) (value : F) :
      Derives .factor [.symbol .sub, .number eId value] (.minus eId value)
  | bracket {ts e} : Derives .expr ts e →
      Derives .factor (.symbol .leftBracket :: (ts ++ [.symbol .rightBracket])) (.bracket e)
  | ofFactor {ts e} : Derives .factor ts e → Derives .term ts e
  | multiply {op : Symbol} {ts us a b} : op.multiplicative = true → Derives .term ts a →
      Derives .factor us b → Derives .term (ts ++ .symbol op :: us) (.binary op a b)
  | ofTerm {ts e} : Derives .term ts e → Derives .expr ts e
  | add {op : Symbol} {ts us a b} : op.additive = true → Derives .expr ts a →
      Derives .term us b → Derives .expr (ts ++ .symbol op :: us) (.binary op a b)

/-- The tokens of some expression. -/
def IsExpression (ts : List (Token F)) : Prop := ∃ e, Derives .expr ts e

def Token.isOther : Token F → Bool
  | .other => true
  | _ => false

/-- The longest prefix of numbers, operators and brackets. -/
def expressionPrefix (tokens : List (Token F)) : List (Token F) :=
  tokens.takeWhile fun tkn => !tkn.isOther

/-! ## Values -/

/-- The usual operations: integers are divided without a remainder, however large they are, and
zero itself is the only number by which nothing is divided. -/
def operate [Double F] (t : BasicObjtype) (x y : F) : Symbol → Option F
  | .add => some (x + y)
  | .sub => some (x - y)
  | .mul => some (x * y)
  | .div =>
      if t.dividesInt then
        if toInt y = 0 then none else some (ofInt ((toInt x).tdiv (toInt y)))
      else if eq y (ofInt 0) then none
      else some (x / y)
  | _ => none

/-- Integers that are divided are zero or numbers of type `int` with a quotient in `int`, and no
other divisor but zero is within `EPSILON` of zero. -/
def Divisible [Double F] (t : BasicObjtype) (x y : F) : Prop :=
  if t.dividesInt then
    toInt y = 0 ∨ Double_IsZero y = false ∧
      toInt32 x = some (toInt x) ∧ toInt32 y = some (toInt y) ∧ Fits ((toInt x).tdiv (toInt y))
  else Double_IsZero y = eq y (ofInt 0)

namespace Expr

/-- The result type after an expression was read. -/
def typeAfter (t : BasicObjtype) : Expr F → BasicObjtype
  | .number eId _ => refreshFinalResultType t (tokenIDToBasicObjectType eId)
  | .minus eId _ =>
      refreshFinalResultType (refreshFinalResultType t (tokenIDToBasicObjectType eId)) .int32
  | .bracket e => typeAfter t e
  | .binary _ a b => typeAfter (typeAfter t a) b

/-- The value of an expression where the result type was `t` before it, `none` where something is
divided by zero. The types of the numbers up to an operator's right operand say which division
it is. -/
def value [Double F] (t : BasicObjtype) : Expr F → Option F
  | .number _ v => some v
  | .minus _ v => some (-v)
  | .bracket e => value t e
  | .binary op a b =>
      (value t a).bind fun x => (value (typeAfter t a) b).bind fun y =>
        operate (typeAfter t (.binary op a b)) x y op

/-- What the evaluator divides in an expression is `Divisible`. -/
def Divides [Double F] (t : BasicObjtype) : Expr F → Prop
  | .number _ _ | .minus _ _ => True
  | .bracket e => Divides t e
  | .binary op a b => Divides t a ∧ Divides (typeAfter t a) b ∧
      (op = .div → ∀ x y, value t a = some x → value (typeAfter t a) b = some y →
        Divisible (typeAfter t (.binary op a b)) x y)

/-- The operators and brackets that wait at once. -/
def opNeed : Expr F → ℕ
  | .number _ _ | .minus _ _ => 0
  | .bracket e => opNeed e + 1
  | .binary _ a b => max (opNeed a) (opNeed b + 1)

/-- The numbers that wait at once. -/
def numNeed : Expr F → ℕ
  | .number _ _ | .minus _ _ => 1
  | .bracket e => numNeed e
  | .binary _ a b => max (numNeed a) (numNeed b + 1)

/-- The expression keeps within the stacks. -/
def WithinLimits (e : Expr F) : Prop := e.opNeed ≤ EXPR_STACK_SZ ∧ e.numNeed ≤ EXPR_STACK_SZ

end Expr

/-- The usual operations on integers. -/
def intCalc (x y : ℤ) : Symbol → Option ℤ
  | .add => some (x + y)
  | .sub => some (x - y)
  | .mul => some (x * y)
  | .div => if y = 0 then none else some (x.tdiv y)
  | _ => none

/-- The integer value of an expression of integer literals whose intermediate values fit, where a
number denotes an integer as `denotes` says. -/
inductive IntValue (denotes : F → ℤ → Prop) : Expr F → ℤ → Prop
  | number {eId v n} : eId ≠ .float → denotes v n → Fits n → IntValue denotes (.number eId v) n
  | minus {eId v n} : eId ≠ .float → denotes v n → Fits (-n) → IntValue denotes (.minus eId v) (-n)
  | bracket {e n} : IntValue denotes e n → IntValue denotes (.bracket e) n
  | binary {op a b x y z} : IntValue denotes a x → IntValue denotes b y →
      intCalc x y op = some z → Fits z → IntValue denotes (.binary op a b) z

/-- What `double` promises of integers: where they and the result fit in `int`, the operations
and conversions are exact. -/
structure IntExact [Double F] (denotes : F → ℤ → Prop) : Prop where
  add : ∀ {x y m n}, denotes x m → denotes y n → Fits m → Fits n → Fits (m + n) →
    denotes (x + y) (m + n)
  sub : ∀ {x y m n}, denotes x m → denotes y n → Fits m → Fits n → Fits (m - n) →
    denotes (x - y) (m - n)
  mul : ∀ {x y m n}, denotes x m → denotes y n → Fits m → Fits n → Fits (m * n) →
    denotes (x * y) (m * n)
  neg : ∀ {x n}, denotes x n → Fits (-n) → denotes (-x) (-n)
  ofInt : ∀ {n}, Fits n → denotes (ofInt n) n
  toInt : ∀ {x n}, denotes x n → Fits n → toInt x = n

/-! ## Operators in order -/

/-- The operators that wait at a bracket level: an additive and over it a multiplicative one. -/
structure Waiting where
  additive : Bool
  multiplicative : Bool
  deriving DecidableEq

def Waiting.none : Waiting := ⟨false, false⟩

/-- What waits after the operator. -/
def Waiting.after (w : Waiting) (op : Symbol) : Waiting :=
  if op.additive then ⟨true, false⟩ else ⟨w.additive, true⟩

/-- No additive operator follows at a bracket level where both a multiplicative one and an
additive one below it wait. Read with what waits at each level, the innermost first; `operand`
says whether an operand has just been read, as a minus sign elsewhere is no operator. -/
def InOrder : Bool → List Waiting → List (Token F) → Bool
  | _, _, [] => true
  | _, _, .other :: _ => true
  | _, ws, .number _ _ :: tokens => InOrder true ws tokens
  | _, ws, .symbol .leftBracket :: tokens => InOrder false (.none :: ws) tokens
  | _, ws, .symbol .rightBracket :: tokens => InOrder true ws.tail tokens
  | operand, ws, .symbol op :: tokens =>
      if operand then
        (!(op.additive && ws.headD .none == ⟨true, true⟩)) &&
          InOrder false ((ws.headD .none).after op :: ws.tail) tokens
      else InOrder false ws tokens

namespace Expr

/-- What waits after an expression was read. -/
def waits (w : Waiting) : Expr F → Waiting
  | .binary op _ b => waits (w.after op) b
  | _ => w

/-- `InOrder`, for an expression. -/
def inOrder : Expr F → Bool
  | .number _ _ | .minus _ _ => true
  | .bracket e => inOrder e
  | .binary op a b => inOrder a && inOrder b && !(op.additive && waits .none a == ⟨true, true⟩)

end Expr

end V2I.Rpcc

/-!
## Definitions in order

Which operators wait after an expression: at most a multiplicative one over an additive one. The
scan of the tokens (`InOrder`) finds what the expression says (`Expr.inOrder`).
-/

namespace V2I.Rpcc

variable {F : Type}

def Expr.isBinary : Expr F → Bool
  | .binary _ _ _ => true
  | _ => false

variable {ts : List (Token F)} {e : Expr F}

theorem Derives.isBinary_factor (h : Derives .factor ts e) : e.isBinary = false := by
  cases h <;> rfl

/-- Nothing waits after the expression, or one operator of the kinds `K`. -/
def Expr.Flat (K : Symbol → Prop) (e : Expr F) : Prop :=
  e.isBinary = false ∨ ∃ op a b, e = .binary op a b ∧ K op ∧ b.isBinary = false

theorem Derives.flat_term (h : Derives .term ts e) : e.Flat fun op => op.multiplicative = true := by
  cases h with
  | ofFactor hf => exact .inl hf.isBinary_factor
  | multiply hop _ hb => exact .inr ⟨_, _, _, rfl, hop, hb.isBinary_factor⟩

theorem Derives.flat_expr (h : Derives .expr ts e) (hwaits : e.waits .none ≠ ⟨true, true⟩) :
    e.Flat fun op => op.additive = true ∨ op.multiplicative = true := by
  cases h with
  | ofTerm ht =>
      rcases ht.flat_term with hb | ⟨op, a, b, rfl, hop, hb⟩
      · exact .inl hb
      · exact .inr ⟨_, _, _, rfl, .inr hop, hb⟩
  | add hop _ ht =>
      rcases ht.flat_term with hb | ⟨op', a, b, rfl, hop', hb⟩
      · exact .inr ⟨_, _, _, rfl, .inl hop, hb⟩
      · refine absurd ?_ hwaits
        have hnot := Symbol.not_additive hop'
        cases b <;> simp_all [Expr.waits, Waiting.after, Expr.isBinary]

theorem Expr.waits_of_not_binary (h : e.isBinary = false) (w : Waiting) : e.waits w = w := by
  cases e <;> first | rfl | cases h

/-- The additive operator that waits is still there after a term. -/
theorem Derives.additive_waits (h : Derives .term ts e) (w : Waiting) :
    (e.waits w).additive = w.additive := by
  rcases h.flat_term with hb | ⟨op, a, b, rfl, hop, hb⟩
  · rw [Expr.waits_of_not_binary hb]
  · rw [Expr.waits, Expr.waits_of_not_binary hb, Waiting.after, Symbol.not_additive hop]
    rfl

theorem inOrder_operator {op : Symbol} (hop : op.additive = true ∨ op.multiplicative = true)
    (w : Waiting) (ws : List Waiting) (tokens : List (Token F)) :
    InOrder true (w :: ws) (.symbol op :: tokens) =
      ((!(op.additive && w == ⟨true, true⟩)) && InOrder false (w.after op :: ws) tokens) := by
  cases op <;> first | rfl | simp [Symbol.additive, Symbol.multiplicative] at hop

/-- What may wait before a piece of the level. -/
def Level.Admits : Level → Waiting → Prop
  | .factor, _ => True
  | .term, w => w.multiplicative = false
  | .expr, w => w = .none

/-- The tokens are in order as the expression is, and leave waiting what it leaves. -/
theorem Derives.inOrder {L : Level} (h : Derives L ts e) :
    ∀ {w : Waiting}, L.Admits w → ∀ ws rest, InOrder false (w :: ws) (ts ++ rest) =
      (e.inOrder && InOrder true (e.waits w :: ws) rest) := by
  induction h with
  | number eId value => exact fun _ ws rest => rfl
  | minus eId value => exact fun _ ws rest => rfl
  | @bracket ts e _ ih =>
      intro w _ ws rest
      have hrest := ih rfl (w :: ws) (.symbol .rightBracket :: rest)
      rw [List.cons_append, List.append_assoc]
      exact hrest
  | ofFactor hf ih => exact fun _ => ih trivial
  | @multiply op ts us a b hop ha hb iha ihb =>
      intro w hw ws rest
      have hafter : (a.waits w).after op = w.after op := by
        simp only [Waiting.after, ha.additive_waits]
      rw [List.append_assoc, List.cons_append, iha hw, inOrder_operator (.inr hop), hafter,
        ihb trivial, Expr.inOrder, Expr.waits, Symbol.not_additive hop]
      simp [Bool.and_assoc]
  | ofTerm ht ih =>
      intro w hw
      exact ih (by rw [show w = .none from hw]; rfl)
  | @add op ts us a b hop ha hb iha ihb =>
      intro w hw ws rest
      cases show w = .none from hw
      have hafter : (a.waits .none).after op = Waiting.none.after op := by
        simp only [Waiting.after, hop, if_true]
      rw [List.append_assoc, List.cons_append, iha rfl, inOrder_operator (.inl hop), hafter,
        ihb (by simp [Level.Admits, Waiting.after, hop]), Expr.inOrder, Expr.waits]
      simp only [Bool.and_assoc, Bool.and_left_comm, Bool.and_comm]

/-- What follows the prefix ends the expression. -/
theorem expressionPrefix_append (tokens : List (Token F)) :
    ∃ rest, tokens = expressionPrefix tokens ++ rest ∧
      (rest = [] ∨ ∃ rest', rest = .other :: rest') := by
  refine ⟨tokens.dropWhile fun tkn => !tkn.isOther, (List.takeWhile_append_dropWhile).symm, ?_⟩
  induction tokens with
  | nil => exact .inl rfl
  | cons tkn tokens ih =>
      cases tkn with
      | other => exact .inr ⟨tokens, rfl⟩
      | number eId value => exact ih
      | symbol eId => exact ih

end V2I.Rpcc
