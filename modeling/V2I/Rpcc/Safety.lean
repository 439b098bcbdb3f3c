import V2I.Rpcc.Grammar

/-!
# V2I.Rpcc.Safety

What every evaluation keeps, in order or not: the stacks hold operators and open brackets and at
most one number more than operators, and the tokens read are open brackets around pieces of
expressions (`Kept`). So no assertion fails, and where the evaluation succeeds the tokens are
those of an expression.
-/

namespace V2I.Rpcc

open List

variable {F : Type}

/-! ## Pieces of expressions -/

variable {ts : List (Token F)}

theorem IsExpression.of_factor {e : Expr F} (h : Derives .factor ts e) :
    IsExpression ts := ⟨e, .ofTerm (.ofFactor h)⟩

variable {us : List (Token F)} {f : Expr F}

/-- An operator and a factor extend an expression. -/
theorem IsExpression.extend {op : Symbol} (h : IsExpression ts)
    (hop : op.additive = true ∨ op.multiplicative = true) (hf : Derives .factor us f) :
    IsExpression (ts ++ .symbol op :: us) := by
  obtain ⟨e, he⟩ := h
  rcases hop with hadd | hmul
  · exact ⟨_, .add hadd he (.ofFactor hf)⟩
  · cases he with
    | ofTerm ht => exact ⟨_, .ofTerm (.multiply hmul ht hf)⟩
    | add hadd ha ht =>
        have hd := Derives.add hadd ha (.multiply hmul ht hf)
        rw [← cons_append, ← append_assoc] at hd
        exact ⟨_, hd⟩

/-- What may stand in front of an operand at a bracket level. -/
inductive Lead : List (Token F) → Prop
  | nil : Lead []
  | op {ts op} : IsExpression ts → (op.additive = true ∨ op.multiplicative = true) →
      Lead (ts ++ [.symbol op])

theorem Lead.operand (h : Lead ts) (hf : Derives .factor us f) : IsExpression (ts ++ us) := by
  cases h with
  | nil => exact .of_factor hf
  | op hts hop =>
      rw [append_assoc]
      exact hts.extend hop hf

/-- Open brackets, each with what stands in front of it. -/
inductive Opened : ℕ → List (Token F) → Prop
  | nil : Opened 0 []
  | bracket {k ts us} : Opened k ts → Lead us →
      Opened (k + 1) (ts ++ us ++ [.symbol .leftBracket])

/-- What stands at a bracket level after an operand was read, and where one is expected. -/
def Piece : Bool → List (Token F) → Prop
  | true => IsExpression
  | false => Lead

/-- The tokens read within `k` open brackets. -/
def Shape (k : ℕ) (operand : Bool) (ts : List (Token F)) : Prop :=
  ∃ front us, Opened k front ∧ Piece operand us ∧ ts = front ++ us

variable {k : ℕ}

theorem Shape.factor (h : Shape k false ts) (hf : Derives .factor us f) :
    Shape k true (ts ++ us) := by
  obtain ⟨front, lead, hopen, hlead, rfl⟩ := h
  exact ⟨front, lead ++ us, hopen, Lead.operand hlead hf, append_assoc _ _ _⟩

theorem Shape.operator {op : Symbol} (h : Shape k true ts)
    (hop : op.additive = true ∨ op.multiplicative = true) : Shape k false (ts ++ [.symbol op]) := by
  obtain ⟨front, us, hopen, hus, rfl⟩ := h
  exact ⟨front, us ++ [Token.symbol op], hopen, Lead.op hus hop, append_assoc _ _ _⟩

theorem Shape.leftBracket (h : Shape k false ts) :
    Shape (k + 1) false (ts ++ [.symbol .leftBracket]) := by
  obtain ⟨front, lead, hopen, hlead, rfl⟩ := h
  exact ⟨_, [], .bracket hopen hlead, .nil, (append_nil _).symm⟩

theorem Shape.rightBracket (h : Shape (k + 1) true ts) :
    Shape k true (ts ++ [.symbol .rightBracket]) := by
  obtain ⟨front, us, hopen, ⟨e, he⟩, rfl⟩ := h
  cases hopen with
  | bracket hopen hlead =>
      refine ⟨_, _, hopen, Lead.operand hlead (.bracket he), ?_⟩
      simp

variable {α : Type}

/-- The step ends in `Q` or stops, but not at an assertion. -/
def Safe (r : Except Stop α) (Q : α → Prop) : Prop :=
  match r with
  | .ok a => Q a
  | .error stop => stop ≠ .assertion

theorem Safe.bind {β : Type} {r : Except Stop α} {f : α → Except Stop β} {Q : α → Prop}
    {R : β → Prop} (h : Safe r Q) (hf : ∀ a, Q a → Safe (f a) R) : Safe (r.bind f) R := by
  cases r with
  | error stop => exact h
  | ok a => exact hf a h

theorem Safe.mono {r : Except Stop α} {Q R : α → Prop} (h : Safe r Q) (hQ : ∀ a, Q a → R a) :
    Safe r R := by
  cases r with
  | error stop => exact h
  | ok a => exact hQ a h

theorem safe_check {b : Bool} (h : b = true) : Safe (check b) fun _ => True := by
  subst h
  trivial

theorem safe_getPriority {eType : ExprTokenType}
    (h : IsOperator eType = true ∨ eType = .leftBracket) :
    Safe (getPriority eType) fun p => p = 0 ↔ eType = .leftBracket := by
  cases eType <;> simp_all [IsOperator, getPriority, Safe]

/-- The stacks, with at most `n` numbers more than operators, and `k` brackets. -/
structure Stacks (n : ℤ) (k : ℕ) (s : State F) : Prop where
  operators : ∀ op ∈ s.operatorStack, IsOperator op = true ∨ op = .leftBracket
  operatorsLe : s.operatorStack.length ≤ EXPR_STACK_SZ
  numbersLe : s.numberStack.length ≤ EXPR_STACK_SZ
  brackets : s.operatorStack.count .leftBracket = k
  numbers : (s.numberStack.length : ℤ) + k ≤ s.operatorStack.length + n

namespace Stacks

variable {s : State F} {n : ℤ} {k : ℕ}

theorem refresh (h : Stacks n k s) (eType : BasicObjtype) : Stacks n k (s.refresh eType) :=
  ⟨h.operators, h.operatorsLe, h.numbersLe, h.brackets, h.numbers⟩

theorem mono {m : ℤ} (h : Stacks n k s) (hle : n ≤ m) : Stacks m k s :=
  ⟨h.operators, h.operatorsLe, h.numbersLe, h.brackets, h.numbers.trans (by omega)⟩

theorem pushNumber (h : Stacks n k s) (val : F) : Safe (s.pushNumber val) fun t =>
    Stacks (n + 1) k t ∧ t.operatorStack = s.operatorStack := by
  rw [State.pushNumber]
  split_ifs with hlt
  · simp [Safe]
  · have hn := h.numbers
    refine ⟨⟨h.operators, h.operatorsLe, ?_, h.brackets, ?_⟩, rfl⟩
    · simp only [length_cons]
      omega
    · simp only [length_cons]
      omega

theorem popNumber (h : Stacks n k s) : Safe s.popNumber fun p =>
    Stacks (n - 1) k p.2 ∧ p.2.operatorStack = s.operatorStack := by
  rw [State.popNumber]
  refine (safe_check (decide_eq_true h.numbersLe)).bind fun _ _ => ?_
  cases hs : s.numberStack with
  | nil => simp [Safe]
  | cons val numberStack =>
      have hle := h.numbersLe
      have hn := h.numbers
      rw [hs, length_cons] at hle hn
      refine ⟨⟨h.operators, h.operatorsLe, Nat.le_of_succ_le hle, h.brackets, ?_⟩, rfl⟩
      simp only
      omega

theorem pushOperator {op : ExprTokenType} (h : Stacks n k s) (hop : IsOperator op = true) :
    Safe (s.pushOperator op) (Stacks (n - 1) k) := by
  rw [State.pushOperator]
  split_ifs with hlt
  · simp [Safe]
  · have hn := h.numbers
    refine ⟨forall_mem_cons.mpr ⟨.inl hop, h.operators⟩, ?_, h.numbersLe, ?_, ?_⟩
    · simp only [length_cons]
      omega
    · rw [count_cons_of_ne (by rintro rfl; cases hop), h.brackets]
    · simp only [length_cons]
      omega

theorem pushBracket (h : Stacks n k s) : Safe (s.pushOperator .leftBracket) (Stacks n (k + 1)) := by
  rw [State.pushOperator]
  split_ifs with hlt
  · simp [Safe]
  · have hn := h.numbers
    refine ⟨forall_mem_cons.mpr ⟨.inr rfl, h.operators⟩, ?_, h.numbersLe, ?_, ?_⟩
    · simp only [length_cons]
      omega
    · rw [count_cons_self, h.brackets]
    · simp only [length_cons]
      omega

/-- The top is taken off: an operator, or the innermost bracket. -/
theorem popOperator (h : Stacks n k s) : Safe s.popOperator fun p =>
    s.operatorStack = p.1 :: p.2.operatorStack ∧ ((IsOperator p.1 = true ∧ Stacks (n + 1) k p.2) ∨
      (p.1 = .leftBracket ∧ ∃ j, k = j + 1 ∧ Stacks n j p.2)) := by
  rw [State.popOperator]
  refine (safe_check (decide_eq_true h.operatorsLe)).bind fun _ _ => ?_
  cases hs : s.operatorStack with
  | nil => simp [Safe]
  | cons op operatorStack =>
      have hle := h.operatorsLe
      have hn := h.numbers
      have hcount := h.brackets
      rw [hs, length_cons] at hle hn
      rw [hs] at hcount
      obtain ⟨hop, hops⟩ := forall_mem_cons.mp (hs ▸ h.operators)
      refine ⟨rfl, ?_⟩
      rcases hop with hop | rfl
      · rw [count_cons_of_ne (by rintro rfl; cases hop)] at hcount
        refine .inl ⟨hop, hops, Nat.le_of_succ_le hle, h.numbersLe, hcount, ?_⟩
        simp only
        omega
      · rw [count_cons_self] at hcount
        refine .inr ⟨rfl, _, hcount.symm, hops, Nat.le_of_succ_le hle, h.numbersLe, rfl, ?_⟩
        simp only
        omega

end Stacks

variable [Double F]

theorem safe_basicCalc (resultType : BasicObjtype) (v1 v2 : F) (op : ExprTokenType) :
    Safe (basicCalc resultType v1 v2 op) fun _ => True := by
  cases op with
  | div =>
      rw [basicCalc]
      split_ifs
      · simp [Safe]
      · split
        · split_ifs <;> simp [Safe]
        · simp [Safe]
      · trivial
  | add | sub | mul => trivial
  | unknown | number | leftBracket | rightBracket => simp [basicCalc, Safe]

namespace Stacks

variable {s : State F} {n : ℤ} {k : ℕ}

theorem calculateTop (h : Stacks n k s) (htop : s.getOpTop ≠ .leftBracket) :
    Safe s.calculateTop (Stacks n k) := by
  refine h.popNumber.bind fun p hp => hp.1.popNumber.bind fun q hq => hq.1.popOperator.bind ?_
  rintro ⟨op, t⟩ ⟨hop, ht⟩
  rcases ht with ⟨hop', ht⟩ | ⟨rfl, -⟩
  · refine (safe_check hop').bind fun _ _ => (safe_basicCalc _ _ _ _).bind fun r _ => ?_
    exact (ht.pushNumber r).mono fun a ha => ha.1.mono (by omega)
  · refine absurd ?_ htop
    rw [State.getOpTop, ← hp.2, ← hq.2, hop]
    rfl

theorem handleOperator {eType : ExprTokenType} (h : Stacks n k s) (hop : IsOperator eType = true) :
    Safe (s.handleOperator eType) (Stacks (n - 1) k) := by
  rw [State.handleOperator]
  split_ifs with hempty
  · exact h.pushOperator hop
  · have htop : IsOperator s.getOpTop = true ∨ s.getOpTop = .leftBracket := by
      refine h.operators _ ?_
      cases hs : s.operatorStack with
      | nil => simp [hs] at hempty
      | cons op ops => simp [State.getOpTop, hs]
    refine (safe_check ?_).bind fun _ _ => (safe_getPriority htop).bind fun prev hprev => ?_
    · rcases htop with htop | htop
      · refine decide_eq_true ?_
        intro hunknown
        rw [hunknown] at htop
        cases htop
      · rw [htop]
        rfl
    · refine (safe_getPriority (.inl hop)).bind fun curr hcurr => ?_
      refine Safe.bind (Q := Stacks n k) ?_ fun t ht => ht.pushOperator hop
      split_ifs with hle
      · refine h.calculateTop fun hleft => ?_
        rw [hprev.mpr hleft, Nat.le_zero, hcurr] at hle
        rw [hle] at hop
        cases hop
      · exact h

variable (passes : List ExprTokenType)

/-- A right bracket closes the innermost bracket. -/
theorem closeBracket (h : Stacks n k s) :
    Safe (State.closeBracket passes s) fun t => ∃ j, k = j + 1 ∧ Stacks n j t := by
  induction passes generalizing s with
  | nil => simp [State.closeBracket, Safe]
  | cons _ passes ih =>
      refine h.popOperator.bind ?_
      rintro ⟨op, t⟩ ⟨-, ⟨hop, ht⟩ | ⟨rfl, j, rfl, ht⟩⟩
      · dsimp only
        rw [if_neg (by rintro rfl; cases hop)]
        refine (safe_check hop).bind fun _ _ => ht.popNumber.bind fun p hp => ?_
        refine hp.1.popNumber.bind fun q hq => (safe_basicCalc _ _ _ _).bind fun r _ => ?_
        exact (hq.1.pushNumber r).bind fun a ha => ih (ha.1.mono (by omega))
      · dsimp only
        rw [if_pos rfl]
        exact ⟨j, rfl, ht⟩

/-- All operators are calculated, and no bracket is left. -/
theorem calculateRest (h : Stacks n k s) (hlen : passes.length = s.operatorStack.length) :
    Safe (State.calculateRest passes s) fun t => k = 0 ∧ t.operatorStack = [] ∧ Stacks n 0 t := by
  induction passes generalizing s with
  | nil =>
      have hnil : s.operatorStack = [] := length_eq_zero_iff.mp hlen.symm
      have hk := h.brackets
      rw [hnil, count_nil] at hk
      subst hk
      exact ⟨rfl, hnil, h⟩
  | cons _ passes ih =>
      refine h.popOperator.bind ?_
      rintro ⟨op, t⟩ ⟨hstack, ⟨hop, ht⟩ | ⟨rfl, -⟩⟩
      · dsimp only
        rw [if_neg (by rintro (rfl | rfl) <;> cases hop), if_neg (not_not.mpr hop)]
        refine ht.popNumber.bind fun p hp => hp.1.popNumber.bind fun q hq => ?_
        refine (safe_basicCalc _ _ _ _).bind fun r _ => (hq.1.pushNumber r).bind fun a ha => ?_
        refine ih (ha.1.mono (by omega)) ?_
        rw [hstack, length_cons, length_cons] at hlen
        rw [ha.2, hq.2, hp.2]
        omega
      · simp [Safe]

end Stacks

/-! ## Runs -/

/-- The last token was an operand. -/
def Operand (last : ExprTokenType) : Bool := last == .number || last == .rightBracket

/-- The tokens read, the type of the last one and the stacks. -/
def Kept (ts : List (Token F)) (last : ExprTokenType) (s : State F) : Prop :=
  ∃ k, Stacks (if Operand last then 1 else 0) k s ∧ Shape k (Operand last) ts

variable {last : ExprTokenType} {ts : List (Token F)} {s : State F}

/-- A number token, or a minus sign and a number. -/
theorem Kept.number {f : Expr F} (h : Kept ts last s) (hlast : .number ∈ getNextAllowTypeList last)
    (val : F) (hf : Derives .factor us f) :
    Safe (s.handleToken val .number) (Kept (ts ++ us) .number) := by
  have hop : Operand last = false := by cases last <;> simp_all [getNextAllowTypeList, Operand]
  obtain ⟨k, hs, hshape⟩ := h
  rw [hop] at hs hshape
  have hpush := hs.pushNumber val
  rw [State.handleToken, if_pos rfl]
  cases hr : s.pushNumber val with
  | error _ => exact ⟨k, hs.mono (by simp [Operand]), hshape.factor hf⟩
  | ok t =>
      rw [hr] at hpush
      exact ⟨k, hpush.1, hshape.factor hf⟩

theorem Kept.symbol {eId : Symbol} (h : Kept ts last s)
    (hlast : eId.exprTokenType ∈ getNextAllowTypeList last) (val : F) :
    Safe (s.handleToken val eId.exprTokenType)
      (Kept (ts ++ [.symbol eId]) eId.exprTokenType) := by
  obtain ⟨k, hs, hshape⟩ := h
  have hoperator : IsOperator eId.exprTokenType = true →
      (eId.additive = true ∨ eId.multiplicative = true) →
      Safe (s.handleToken val eId.exprTokenType)
        (Kept (ts ++ [.symbol eId]) eId.exprTokenType) := by
    intro hop hkind
    have hlast' : Operand last = true := by
      cases eId <;> cases last <;> simp_all [getNextAllowTypeList, Symbol.exprTokenType, Operand,
        IsOperator]
    have hnext : Operand eId.exprTokenType = false := by
      cases eId <;> simp_all [Symbol.exprTokenType, Operand, IsOperator]
    rw [hlast'] at hs hshape
    rw [State.handleToken, if_neg (by intro heq; rw [heq] at hop; cases hop), if_pos hop]
    refine (hs.handleOperator hop).mono fun t ht => ⟨k, ?_, ?_⟩
    · rw [hnext]
      exact ht
    · rw [hnext]
      exact hshape.operator hkind
  cases eId with
  | add => exact hoperator rfl (.inl rfl)
  | sub => exact hoperator rfl (.inl rfl)
  | mul => exact hoperator rfl (.inr rfl)
  | div => exact hoperator rfl (.inr rfl)
  | leftBracket =>
      have hlast' : Operand last = false := by
        cases last <;> simp_all [getNextAllowTypeList, Symbol.exprTokenType, Operand]
      rw [hlast'] at hs hshape
      exact hs.pushBracket.mono fun t ht => ⟨k + 1, ht, hshape.leftBracket⟩
  | rightBracket =>
      have hlast' : Operand last = true := by
        cases last <;> simp_all [getNextAllowTypeList, Symbol.exprTokenType, Operand]
      rw [hlast'] at hs hshape
      refine (hs.closeBracket _).mono ?_
      rintro t ⟨j, rfl, ht⟩
      exact ⟨j, ht, hshape.rightBracket⟩

omit [Double F] in
theorem Kept.refresh (h : Kept ts last s) (eType : BasicObjtype) :
    Kept ts last (s.refresh eType) := by
  obtain ⟨k, hs, hshape⟩ := h
  exact ⟨k, hs.refresh eType, hshape⟩

omit [Double F] in
theorem expressionPrefix_cons {tkn : Token F} (h : tkn.isOther = false) (tokens : List (Token F)) :
    expressionPrefix (tkn :: tokens) = tkn :: expressionPrefix tokens := by
  simp [expressionPrefix, h]

/-- What is kept while the tokens of the prefix are read. -/
theorem Kept.analyzeLoop (h : Kept ts last s) (tokens : List (Token F)) :
    Safe (analyzeLoop tokens last s) fun t =>
      ∃ last', Kept (ts ++ expressionPrefix tokens) last' t := by
  induction tokens, last, s using analyzeLoop.induct generalizing ts with
  | case1 last s =>
      rw [V2I.Rpcc.analyzeLoop]
      exact ⟨last, by simpa [expressionPrefix] using h⟩
  | case2 tokens last s =>
      rw [V2I.Rpcc.analyzeLoop]
      exact ⟨last, by simpa [expressionPrefix, Token.isOther] using h⟩
  | case3 eId value tokens last s hlast ih =>
      rw [analyzeLoop_number hlast, expressionPrefix_cons rfl, append_cons]
      exact ((h.refresh _).number hlast value (.number eId value)).bind fun t ht => ih t ht
  | case4 eId value tokens last s hlast =>
      rw [V2I.Rpcc.analyzeLoop, if_neg hlast]
      simp [Safe]
  | case5 eId tokens last s hlast ih =>
      rw [analyzeLoop_symbol hlast, expressionPrefix_cons rfl, append_cons]
      exact (h.symbol hlast _).bind fun t ht => ih t ht
  | case6 eId last s hlast hsub eId' value tokens ih =>
      have heId : eId = .sub := Symbol.eq_sub hsub.1
      subst heId
      rw [analyzeLoop_minus hsub.2, expressionPrefix_cons rfl, expressionPrefix_cons rfl,
        append_cons, append_cons, append_assoc ts]
      exact (((h.refresh _).refresh _).number hsub.2 (-value) (.minus eId' value)).bind
        fun t ht => ih t ht
  | case7 eId tokens last s hlast hsub hnot =>
      rw [analyzeLoop_unexpected hlast fun _ _ eId value tokens' => hnot eId value tokens']
      simp [Safe]
  | case8 eId tokens last s hlast hsub =>
      have hsign : eId = .sub → .number ∈ getNextAllowTypeList last →
          ∀ eId value tokens', tokens ≠ .number eId value :: tokens' :=
        fun heId hnum => absurd ⟨by rw [heId]; rfl, hnum⟩ hsub
      rw [analyzeLoop_unexpected hlast hsign]
      simp [Safe]

end V2I.Rpcc
