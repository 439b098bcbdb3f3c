import V2I.Lib.Double

/-!
# V2I.Rpcc.Expression

The evaluator of constant expressions of the interface compiler (`expr.cpp`): numbers and
operators are pushed on two stacks of `EXPR_STACK_SZ` entries while the tokens are read, and the
operator on top is calculated when one of lower or equal priority follows. A list of allowed
types says which token may follow which.

A number is a number token or a name that an override of `ParseNumberIdentifier` resolves;
any other token is the end of the expression. A step stops with `false` after it has printed an
error, with a failed assertion, where the processor traps an integer division, or where a
conversion to `int` has no defined result.
-/

namespace V2I.Rpcc

open Double

/-- `EXPR_STACK_SZ` -/
def EXPR_STACK_SZ : ℕ := 256

/-- The token ids of numbers. -/
inductive NumberId where
  | int
  | uint
  | float
  deriving DecidableEq

/-- The token ids of operators and brackets. -/
inductive Symbol where
  | add
  | sub
  | mul
  | div
  | leftBracket
  | rightBracket
  deriving DecidableEq

inductive Token (F : Type) where
  | number (eId : NumberId) (value : F)
  | symbol (eId : Symbol)
  | other
  deriving DecidableEq

/-- `EExprTokenType` -/
inductive ExprTokenType where
  | unknown
  | add
  | sub
  | mul
  | div
  | number
  | leftBracket
  | rightBracket
  deriving DecidableEq

/-- `basic_objtype`, as far as numbers go. -/
inductive BasicObjtype where
  | unknown
  | uint8
  | int16
  | int32
  | int64
  | uint32
  | float
  deriving DecidableEq

/-- The errors that are printed. -/
inductive ErrorId where
  | expressionStackOverflow
  | expressionStackEmpty
  | unexpectedExpressionToken
  | expressionMismatchWithBracket
  | expressionInternalError
  | expressionDivideByZero
  deriving DecidableEq

/-- How an evaluation stops: it returns `false`, where the last error printed is `error`, an
assertion fails, an integer is divided by zero or the least `int` by `-1`, or a number is
converted that has no `int`. -/
inductive Stop where
  | failed (error : Option ErrorId)
  | assertion
  | trap
  | undefined
  deriving DecidableEq

/-- `assert` -/
def check (b : Bool) : Except Stop Unit := if b then .ok () else .error .assertion

/-! ## Types -/

def Symbol.exprTokenType : Symbol → ExprTokenType
  | .add => .add
  | .sub => .sub
  | .mul => .mul
  | .div => .div
  | .leftBracket => .leftBracket
  | .rightBracket => .rightBracket

theorem Symbol.eq_sub {eId : Symbol} (h : eId.exprTokenType = .sub) : eId = .sub := by
  cases eId <;> first | rfl | cases h

/-- `IsOperator` -/
def IsOperator : ExprTokenType → Bool
  | .add | .sub | .mul | .div => true
  | _ => false

/-- `ConvertNumberTypeToLevel` -/
def convertNumberTypeToLevel : BasicObjtype → ℕ
  | .int32 => 4
  | .int16 => 2
  | .int64 => 5
  | .uint32 => 3
  | .uint8 => 1
  | .float => 6
  | .unknown => 0

/-- `RefreshFinalResultType`, on the result type. -/
def refreshFinalResultType (resultType eType : BasicObjtype) : BasicObjtype :=
  if convertNumberTypeToLevel resultType < convertNumberTypeToLevel eType then eType
  else resultType

/-- `TokenIDToBasicObjectType` -/
def tokenIDToBasicObjectType : NumberId → BasicObjtype
  | .int => .int32
  | .uint => .uint32
  | .float => .float

/-- `GetNextAllowTypeList` -/
def getNextAllowTypeList : ExprTokenType → List ExprTokenType
  | .unknown | .add | .sub | .mul | .div | .leftBracket => [.number, .leftBracket]
  | .number | .rightBracket => [.add, .sub, .mul, .div, .rightBracket]

/-- `GetPriority` -/
def getPriority : ExprTokenType → Except Stop ℕ
  | .add | .sub => .ok 1
  | .mul | .div => .ok 2
  | .leftBracket => .ok 0
  | .rightBracket => .ok 3
  | .unknown | .number => .error .assertion

/-! ## Stacks -/

/-- The stacks, their tops first, and `m_eResultType`. -/
structure State (F : Type) where
  numberStack : List F
  operatorStack : List ExprTokenType
  resultType : BasicObjtype
  deriving DecidableEq

variable {F : Type}

namespace State

/-- `Reset` -/
def reset : State F := ⟨[], [], .unknown⟩

/-- `PushNumber` -/
def pushNumber (s : State F) (val : F) : Except Stop (State F) :=
  if EXPR_STACK_SZ ≤ s.numberStack.length then .error (.failed (some .expressionStackOverflow))
  else .ok { s with numberStack := val :: s.numberStack }

/-- `PopNumber` -/
def popNumber (s : State F) : Except Stop (F × State F) :=
  (check (decide (s.numberStack.length ≤ EXPR_STACK_SZ))).bind fun _ =>
    match s.numberStack with
    | [] => .error (.failed (some .expressionStackEmpty))
    | val :: numberStack => .ok (val, { s with numberStack })

/-- `PushOperator` -/
def pushOperator (s : State F) (eType : ExprTokenType) : Except Stop (State F) :=
  if EXPR_STACK_SZ ≤ s.operatorStack.length then .error (.failed (some .expressionStackOverflow))
  else .ok { s with operatorStack := eType :: s.operatorStack }

/-- `PopOperator` -/
def popOperator (s : State F) : Except Stop (ExprTokenType × State F) :=
  (check (decide (s.operatorStack.length ≤ EXPR_STACK_SZ))).bind fun _ =>
    match s.operatorStack with
    | [] => .error (.failed (some .expressionStackEmpty))
    | eType :: operatorStack => .ok (eType, { s with operatorStack })

/-- `GetOpTop` -/
def getOpTop (s : State F) : ExprTokenType := s.operatorStack.headD .unknown

/-- `RefreshFinalResultType` -/
def refresh (s : State F) (eType : BasicObjtype) : State F :=
  { s with resultType := refreshFinalResultType s.resultType eType }

end State

variable {ops : List ExprTokenType}

theorem popNumber_cons {x : F} {ns : List F} {t : BasicObjtype} (h : ns.length + 1 ≤ EXPR_STACK_SZ)
    : State.popNumber ⟨x :: ns, ops, t⟩ = .ok (x, ⟨ns, ops, t⟩) := by
  have hle : (x :: ns).length ≤ EXPR_STACK_SZ := h
  simp only [State.popNumber, check, hle, decide_true, if_true]
  rfl

theorem popOperator_cons {ns : List F} {op : ExprTokenType} {t : BasicObjtype}
    (h : ops.length + 1 ≤ EXPR_STACK_SZ) :
    State.popOperator ⟨ns, op :: ops, t⟩ = .ok (op, ⟨ns, ops, t⟩) := by
  have hle : (op :: ops).length ≤ EXPR_STACK_SZ := h
  simp only [State.popOperator, check, hle, decide_true, if_true]
  rfl

theorem pushNumber_eq {s : State F} (h : s.numberStack.length < EXPR_STACK_SZ) (x : F) :
    s.pushNumber x = .ok { s with numberStack := x :: s.numberStack } :=
  if_neg (by omega)

/-! ## Evaluation -/

variable [Double F]

/-- `EPSILON` -/
def EPSILON : F := ofRat (1 / 100000)

/-- `Double_IsZero` -/
def Double_IsZero (v : F) : Bool := lt (-EPSILON) v && lt v EPSILON

/-- The value fits in `int`. -/
def Fits (n : ℤ) : Prop := -2 ^ 31 ≤ n ∧ n < 2 ^ 31

instance decidableFits (n : ℤ) : Decidable (Fits n) :=
  inferInstanceAs (Decidable (-2 ^ 31 ≤ n ∧ n < 2 ^ 31))

/-- `int(v)`, none where what is left without the fraction is no `int`. -/
def toInt32 (v : F) : Option ℤ :=
  if lt (ofInt (-2 ^ 31 - 1)) v && lt v (ofInt (2 ^ 31)) then some (toInt v) else none

/-- The result types in which `BasicCalc` divides integers. -/
def BasicObjtype.dividesInt (resultType : BasicObjtype) : Prop :=
  resultType = .int32 ∨ resultType = .uint8 ∨ resultType = .uint32

instance decidableDividesInt (resultType : BasicObjtype) : Decidable resultType.dividesInt :=
  inferInstanceAs (Decidable (_ ∨ _))

/-- `BasicCalc` -/
def basicCalc (resultType : BasicObjtype) (v1 v2 : F) : ExprTokenType → Except Stop F
  | .add => .ok (v1 + v2)
  | .sub => .ok (v1 - v2)
  | .mul => .ok (v1 * v2)
  | .div =>
      if Double_IsZero v2 then .error (.failed (some .expressionDivideByZero))
      else if resultType.dividesInt then
        match toInt32 v1, toInt32 v2 with
        | some m, some n =>
            if n ≠ 0 ∧ Fits (m.tdiv n) then .ok (ofInt (m.tdiv n)) else .error .trap
        | _, _ => .error .undefined
      else .ok (v1 / v2)
  | _ => .error (.failed none)

namespace State

/-- The calculation in `HandleToken` for the operator on top. -/
def calculateTop (s : State F) : Except Stop (State F) := do
  let (v2, s) ← s.popNumber
  let (v1, s) ← s.popNumber
  let (op, s) ← s.popOperator
  check (IsOperator op)
  let r ← basicCalc s.resultType v1 v2 op
  s.pushNumber r

/-- `HandleToken` for an operator. -/
def handleOperator (s : State F) (eType : ExprTokenType) : Except Stop (State F) :=
  if s.operatorStack.isEmpty then s.pushOperator eType
  else do
    let ePrevType := s.getOpTop
    check (decide (ePrevType ≠ .unknown))
    let prev ← getPriority ePrevType
    let curr ← getPriority eType
    -- one calculation, although more may be due
    let s ← (if curr ≤ prev then s.calculateTop else .ok s)
    s.pushOperator eType

/-- The loop of `HandleToken` for a right bracket, at most one pass for each operator of the
list. -/
def closeBracket : List ExprTokenType → State F → Except Stop (State F)
  | [], _ => .error (.failed (some .expressionMismatchWithBracket))
  | _ :: passes, s => do
      let (ePrevType, s) ← s.popOperator
      if ePrevType = .leftBracket then .ok s
      else do
        check (IsOperator ePrevType)
        let (v2, s) ← s.popNumber
        let (v1, s) ← s.popNumber
        let r ← basicCalc s.resultType v1 v2 ePrevType
        let s ← s.pushNumber r
        closeBracket passes s

/-- `HandleToken` -/
def handleToken (s : State F) (value : F) (eType : ExprTokenType) : Except Stop (State F) :=
  if eType = .number then
    -- the result of PushNumber is not looked at
    match s.pushNumber value with
    | .ok s' => .ok s'
    | .error _ => .ok s
  else if IsOperator eType then s.handleOperator eType
  else if eType = .leftBracket then s.pushOperator eType
  else if eType = .rightBracket then closeBracket s.operatorStack s
  else .error (.failed none)

/-- The last loop of `AnalyzeExpression`, one pass for each operator of the list. -/
def calculateRest : List ExprTokenType → State F → Except Stop (State F)
  | [], s => .ok s
  | _ :: passes, s => do
      let (op, s) ← s.popOperator
      if op = .leftBracket ∨ op = .rightBracket then
        .error (.failed (some .expressionMismatchWithBracket))
      else if ¬ IsOperator op then .error (.failed (some .expressionInternalError))
      else do
        let (v2, s) ← s.popNumber
        let (v1, s) ← s.popNumber
        let r ← basicCalc s.resultType v1 v2 op
        let s ← s.pushNumber r
        calculateRest passes s

end State

/-- The first loop of `AnalyzeExpression`, from the type of the last token on. -/
def analyzeLoop : List (Token F) → ExprTokenType → State F → Except Stop (State F)
  | [], _, s => .ok s
  | .other :: _, _, s => .ok s
  | .number eId value :: tokens, last, s =>
      if .number ∈ getNextAllowTypeList last then
        ((s.refresh (tokenIDToBasicObjectType eId)).handleToken value .number).bind fun s =>
          analyzeLoop tokens .number s
      else .error (.failed (some .unexpectedExpressionToken))
  | .symbol eId :: tokens, last, s =>
      if eId.exprTokenType ∈ getNextAllowTypeList last then
        (s.handleToken (ofInt 0) eId.exprTokenType).bind fun s =>
          analyzeLoop tokens eId.exprTokenType s
      else if eId.exprTokenType = .sub ∧ .number ∈ getNextAllowTypeList last then
        -- a minus sign before a number
        match tokens with
        | .number eId value :: tokens =>
            (((s.refresh (tokenIDToBasicObjectType eId)).refresh .int32).handleToken (-value)
              .number).bind fun s => analyzeLoop tokens .number s
        | _ => .error (.failed (some .unexpectedExpressionToken))
      else .error (.failed (some .unexpectedExpressionToken))

section Loop

variable {last : ExprTokenType} {eId : Symbol}

theorem analyzeLoop_number (h : .number ∈ getNextAllowTypeList last) (eId : NumberId) (value : F)
    (tokens : List (Token F)) (s : State F) :
    analyzeLoop (.number eId value :: tokens) last s =
      ((s.refresh (tokenIDToBasicObjectType eId)).handleToken value .number).bind fun s =>
        analyzeLoop tokens .number s := by
  rw [analyzeLoop.eq_def]
  exact if_pos h

theorem analyzeLoop_symbol (h : eId.exprTokenType ∈ getNextAllowTypeList last)
    (tokens : List (Token F)) (s : State F) :
    analyzeLoop (.symbol eId :: tokens) last s =
      (s.handleToken (ofInt 0) eId.exprTokenType).bind fun s =>
        analyzeLoop tokens eId.exprTokenType s := by
  rw [analyzeLoop.eq_def]
  exact if_pos h

theorem analyzeLoop_minus (h : .number ∈ getNextAllowTypeList last) (eId : NumberId) (value : F)
    (tokens : List (Token F)) (s : State F) :
    analyzeLoop (.symbol .sub :: .number eId value :: tokens) last s =
      (((s.refresh (tokenIDToBasicObjectType eId)).refresh .int32).handleToken (-value)
        .number).bind fun s => analyzeLoop tokens .number s := by
  have hsub : Symbol.sub.exprTokenType ∉ getNextAllowTypeList last := by
    cases last <;> simp_all [getNextAllowTypeList, Symbol.exprTokenType]
  rw [analyzeLoop.eq_def]
  exact (if_neg hsub).trans (if_pos ⟨rfl, h⟩)

/-- A symbol that is neither allowed nor a sign. -/
theorem analyzeLoop_unexpected (h : eId.exprTokenType ∉ getNextAllowTypeList last)
    {tokens : List (Token F)} (hsign : eId = .sub → .number ∈ getNextAllowTypeList last →
      ∀ eId value tokens', tokens ≠ .number eId value :: tokens') (s : State F) :
    analyzeLoop (.symbol eId :: tokens) last s =
      .error (.failed (some .unexpectedExpressionToken)) := by
  rw [analyzeLoop.eq_def]
  refine (if_neg h).trans ?_
  split_ifs with hsub
  · split
    · exact absurd rfl (hsign (Symbol.eq_sub hsub.1) hsub.2 _ _ _)
    · rfl
  · rfl

end Loop

/-- `AnalyzeExpression`: `m_Result` and `m_eResultType`. -/
def analyzeExpression (tokens : List (Token F)) : Except Stop (F × BasicObjtype) := do
  let s ← analyzeLoop tokens .unknown .reset
  let s ← State.calculateRest s.operatorStack s
  let (result, s) ← s.popNumber
  check s.numberStack.isEmpty
  .ok (result, s.resultType)

end V2I.Rpcc
