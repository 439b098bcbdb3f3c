import V2I.Rpcc.Safety

/-!
# V2I.Rpcc.Reading

What the evaluator does with the tokens of an expression whose operators are in order. While they
are read, the right operands on its rim wait on the stacks (`Expr.pending`) until an operator, a
bracket or the end settles them. An operator settles one of them, which is enough here.
-/

namespace V2I.Rpcc

open Double List Option

variable {F : Type} [Double F]

/-! ## Calculations -/

/-- The state after the tokens of the expression: the right operands on its rim wait. -/
def Expr.pending : Expr F → State F → Option (State F)
  | .binary op a b, s => (value s.resultType a).bind fun x =>
      pending b ⟨x :: s.numberStack, op.exprTokenType :: s.operatorStack, typeAfter s.resultType a⟩
  | e, s => (value s.resultType e).map fun v =>
      ⟨v :: s.numberStack, s.operatorStack, typeAfter s.resultType e⟩

/-- The state with the value of the expression. -/
def Expr.settled (e : Expr F) (s : State F) : Option (State F) :=
  (value s.resultType e).map fun v =>
    ⟨v :: s.numberStack, s.operatorStack, typeAfter s.resultType e⟩

variable {e : Expr F}

theorem Expr.pending_of_not_binary (h : e.isBinary = false) (s : State F) :
    e.pending s = e.settled s := by
  cases e <;> first | rfl | cases h

variable {op : Symbol}

theorem Symbol.isOperator (h : op.additive = true ∨ op.multiplicative = true) :
    IsOperator op.exprTokenType = true := by
  cases op <;> simp_all [Symbol.additive, Symbol.multiplicative, Symbol.exprTokenType, IsOperator]

/-- The run comes to the state, or stops where there is none. -/
def EndsIn (r : Except Stop (State F)) (next : State F → Except Stop (State F)) :
    Option (State F) → Prop
  | some t => r = next t
  | none => ∃ stop, r = .error stop

variable {x : F}

theorem toInt32_eq {n : ℤ} (h : toInt32 x = some n) : toInt x = n := by
  unfold toInt32 at h
  split_ifs at h
  exact some.inj h

variable {t : BasicObjtype} {y : F}

/-- What the evaluator calculates is what the operation gives. -/
theorem toOption_basicCalc (h : op = .div → Divisible t x y) :
    (basicCalc t x y op.exprTokenType).toOption = operate t x y op := by
  cases op with
  | add | sub | mul | leftBracket | rightBracket => rfl
  | div =>
      have hdiv := h rfl
      rw [Symbol.exprTokenType, basicCalc, operate]
      rw [Divisible] at hdiv
      by_cases ht : t.dividesInt
      · rw [if_pos ht] at hdiv
        rw [if_pos ht, if_pos ht]
        rcases hdiv with hzero | ⟨hne, hx, hy, hfits⟩
        · -- zero is refused, or traps where it is converted
          rw [if_pos hzero]
          split_ifs
          · rfl
          · split
            · next hn =>
              rw [if_neg fun hok => hok.1 ((toInt32_eq hn).symm.trans hzero)]
              rfl
            · rfl
        · rw [hne, if_neg Bool.false_ne_true, hx, hy]
          by_cases hzero : toInt y = 0
          · simp [hzero, Except.toOption]
          · simp [hzero, hfits, Except.toOption]
      · rw [if_neg ht] at hdiv
        rw [if_neg ht, if_neg ht, hdiv]
        split_ifs <;> rfl

variable {ops : List ExprTokenType} {ns : List F}

/-- The result of the operation, or a stop. -/
theorem calculation (h : op = .div → Divisible t x y) (next : State F → Except Stop (State F)) :
    EndsIn ((basicCalc t x y op.exprTokenType).bind fun r => next ⟨r :: ns, ops, t⟩) next
      ((operate t x y op).map fun v => ⟨v :: ns, ops, t⟩) := by
  rw [← toOption_basicCalc h]
  cases basicCalc t x y op.exprTokenType with
  | ok v => exact rfl
  | error stop => exact ⟨stop, rfl⟩

theorem calculateTop_eq {op : ExprTokenType} (hop : IsOperator op = true)
    (hn : ns.length + 2 ≤ EXPR_STACK_SZ) (ho : ops.length + 1 ≤ EXPR_STACK_SZ) :
    State.calculateTop ⟨y :: x :: ns, op :: ops, t⟩ =
      (basicCalc t x y op).bind fun r => .ok ⟨r :: ns, ops, t⟩ := by
  rw [State.calculateTop, popNumber_cons (by rw [length_cons]; omega)]
  simp only [bind, Except.bind]
  rw [popNumber_cons (by omega)]
  simp only
  rw [popOperator_cons ho]
  simp only [hop, check, if_true]
  cases basicCalc t x y op with
  | error stop => rfl
  | ok r => exact pushNumber_eq (by simp only; omega) r

/-- A loop that calculates the operator on top in a pass. -/
def Calculates (loop : List ExprTokenType → State F → Except Stop (State F)) : Prop :=
  ∀ x y ns op ops t, IsOperator op = true → ns.length + 2 ≤ EXPR_STACK_SZ →
    ops.length + 1 ≤ EXPR_STACK_SZ → loop (op :: ops) ⟨y :: x :: ns, op :: ops, t⟩ =
      (basicCalc t x y op).bind fun r => loop ops ⟨r :: ns, ops, t⟩

theorem closeBracket_calculates : Calculates (@State.closeBracket F _) := by
  intro x y ns op ops t hop hn ho
  rw [State.closeBracket, popOperator_cons ho]
  simp only [bind, Except.bind]
  rw [if_neg (by rintro rfl; cases hop), popNumber_cons (by rw [length_cons]; omega)]
  simp only [hop, check, if_true]
  rw [popNumber_cons (by omega)]
  simp only
  cases basicCalc t x y op with
  | error stop => rfl
  | ok r =>
      simp only
      rw [pushNumber_eq (by simp only; omega)]

theorem calculateRest_calculates : Calculates (@State.calculateRest F _) := by
  intro x y ns op ops t hop hn ho
  rw [State.calculateRest, popOperator_cons ho]
  simp only [bind, Except.bind]
  rw [if_neg (by rintro (rfl | rfl) <;> cases hop), if_neg (not_not.mpr hop),
    popNumber_cons (by rw [length_cons]; omega)]
  simp only
  rw [popNumber_cons (by omega)]
  simp only
  cases basicCalc t x y op with
  | error stop => rfl
  | ok r =>
      simp only
      rw [pushNumber_eq (by simp only; omega)]

variable {s : State F}

/-- As many operators as right operands wait over what was there before, and the value of the
innermost left one. -/
theorem Expr.pending_length {t : State F} (h : e.pending s = some t) :
    t.numberStack.length + s.operatorStack.length =
        s.numberStack.length + t.operatorStack.length + 1 ∧
      s.operatorStack.length ≤ t.operatorStack.length ∧
      t.operatorStack.length ≤ s.operatorStack.length + e.opNeed := by
  induction e generalizing s with
  | binary op a b _ ih =>
      obtain ⟨x, -, hb⟩ := bind_eq_some_iff.mp h
      obtain ⟨hlen, hge, hle⟩ := ih hb
      simp only [length_cons] at hlen hge hle
      simp only [Expr.opNeed]
      omega
  | number _ _ | minus _ _ | bracket _ _ =>
      obtain ⟨v, -, rfl⟩ := map_eq_some_iff.mp h
      simp only [length_cons]
      omega

variable {ts : List (Token F)} {L : Level}

/-- What waits, settled by a loop, leaves the value, or the loop stops where there is none. -/
theorem Derives.settle {loop : List ExprTokenType → State F → Except Stop (State F)}
    (hloop : Calculates loop) (h : Derives L ts e) :
    ∀ {s t : State F}, e.pending s = some t → e.Divides s.resultType →
      t.operatorStack.length ≤ EXPR_STACK_SZ → t.numberStack.length ≤ EXPR_STACK_SZ →
      EndsIn (loop t.operatorStack t) (fun u => loop u.operatorStack u) (e.settled s) := by
  -- the node on the rim, after its right operand
  have hnode : ∀ {op : Symbol} {a b : Expr F},
      (op.additive = true ∨ op.multiplicative = true) →
      (∀ {s t : State F}, b.pending s = some t → b.Divides s.resultType →
        t.operatorStack.length ≤ EXPR_STACK_SZ → t.numberStack.length ≤ EXPR_STACK_SZ →
        EndsIn (loop t.operatorStack t) (fun u => loop u.operatorStack u) (b.settled s)) →
      ∀ {s t : State F}, (Expr.binary op a b).pending s = some t →
        (Expr.binary op a b).Divides s.resultType → t.operatorStack.length ≤ EXPR_STACK_SZ → t.numberStack.length ≤ EXPR_STACK_SZ →
        EndsIn (loop t.operatorStack t) (fun u => loop u.operatorStack u)
          ((Expr.binary op a b).settled s) := by
    intro op a b hop ih s t hpending ⟨_, hdivides, hdivisible⟩ hops hns
    obtain ⟨x, hx, hb⟩ := bind_eq_some_iff.mp hpending
    obtain ⟨hlen, hge, -⟩ := Expr.pending_length hb
    have hends := ih hb hdivides hops hns
    simp only [length_cons] at hlen hge
    simp only [Expr.settled, Expr.value, hx, bind_some] at hends ⊢
    cases hy : b.value (a.typeAfter s.resultType) with
    | none =>
        rw [hy] at hends
        exact hends
    | some y =>
        rw [hy] at hends
        have hcalc := hloop x y s.numberStack _ s.operatorStack
          (b.typeAfter (a.typeAfter s.resultType)) (Symbol.isOperator hop) (by omega) (by omega)
        rw [show loop t.operatorStack t = _ from hends.trans hcalc]
        exact calculation (fun heq => hdivisible heq x y hx hy) fun u => loop u.operatorStack u
  have hleaf : ∀ {e : Expr F}, e.isBinary = false → ∀ {s t : State F}, e.pending s = some t →
      EndsIn (loop t.operatorStack t) (fun u => loop u.operatorStack u) (e.settled s) := by
    intro e hbinary s t hpending
    rw [← Expr.pending_of_not_binary hbinary, hpending]
    exact rfl
  induction h with
  | number _ _ | minus _ _ | bracket _ _ => exact fun hpending _ _ _ => hleaf rfl hpending
  | ofFactor _ ih | ofTerm _ ih => exact ih
  | multiply hop _ _ _ ih => exact hnode (.inr hop) ih
  | add hop _ _ _ ih => exact hnode (.inl hop) ih

/-- Where nothing waits in the end, there is no value. -/
theorem Expr.settled_of_pending_none (h : e.pending s = none) : e.settled s = none := by
  induction e generalizing s with
  | binary op a b _ ih =>
      simp only [Expr.settled, Expr.value]
      cases hx : a.value s.resultType with
      | none => rfl
      | some x =>
          rw [Expr.pending, hx] at h
          have hb := ih h
          simp only [Expr.settled, map_eq_none_iff] at hb
          simp [hb]
  | number _ _ | minus _ _ | bracket _ _ => exact h

/-! ## Reading -/

/-- The priority of the operator on top is below that of the level. -/
def Level.priority : Level → ℕ
  | .expr => 1
  | .term => 2
  | .factor => 3

/-- How many operators may wait above an open bracket. -/
def Level.slack : Level → ℕ
  | .expr => 0
  | .term => 1
  | .factor => 2

/-- At most two operators wait after an expression, at most one after a term. -/
theorem Derives.pending_slack (h : Derives L ts e) :
    ∀ {s t : State F}, e.pending s = some t →
      t.operatorStack.length + L.slack ≤ s.operatorStack.length + 2 := by
  induction h with
  | number _ _ | minus _ _ | bracket _ _ =>
      intro s t hpending
      obtain ⟨v, -, rfl⟩ := map_eq_some_iff.mp hpending
      exact Nat.le_refl _
  | ofFactor _ ih | ofTerm _ ih =>
      intro s t hpending
      have hle := ih hpending
      simp only [Level.slack] at hle ⊢
      omega
  | multiply _ _ _ _ ih | add _ _ _ _ ih =>
      intro s t hpending
      obtain ⟨x, -, hb⟩ := bind_eq_some_iff.mp hpending
      have hle := ih hb
      simp only [Level.slack, length_cons] at hle ⊢
      omega

/-- The stacks before a piece of the level. -/
structure Base (L : Level) (s : State F) : Prop where
  top : ∀ op ∈ s.operatorStack.head?, ∃ p, getPriority op = .ok p ∧ p < L.priority
  numbers : 3 * s.numberStack.length ≤ 2 * s.operatorStack.length + L.slack
  operators : s.operatorStack.length ≤ EXPR_STACK_SZ

omit [Double F] in
theorem Base.weaken {L' : Level} (h : Base L s) (hp : L.priority ≤ L'.priority)
    (hs : L.slack ≤ L'.slack) : Base L' s where
  top := by
    intro op hop
    obtain ⟨p, heq, hlt⟩ := h.top op hop
    exact ⟨p, heq, hlt.trans_le hp⟩
  numbers := h.numbers.trans (by omega)
  operators := h.operators

theorem Symbol.getPriority (h : op.additive = true ∨ op.multiplicative = true) :
    V2I.Rpcc.getPriority op.exprTokenType = .ok (if op.additive then 1 else 2) := by
  cases op <;> first | rfl | simp [Symbol.additive, Symbol.multiplicative] at h

omit [Double F] in
/-- An operator over the base, for an operand of the next level. -/
theorem Base.push {L' : Level} (h : Base L s) (hop : op.additive = true ∨ op.multiplicative = true)
    (hp : (if op.additive then 1 else 2) < L'.priority) (hs : L.slack + 1 ≤ L'.slack)
    (hlt : s.operatorStack.length < EXPR_STACK_SZ) :
    Base L' ⟨x :: s.numberStack, op.exprTokenType :: s.operatorStack, t⟩ where
  top := by
    rintro _ ⟨⟩
    exact ⟨_, Symbol.getPriority hop, hp⟩
  numbers := by
    have hn := h.numbers
    simp only [length_cons]
    omega
  operators := hlt

theorem handleOperator_push {n : ℕ}
    (htop : ∀ top ∈ s.operatorStack.head?, ∃ p, getPriority top = .ok p ∧ p < n)
    (hop : op.additive = true ∨ op.multiplicative = true) (hp : n ≤ if op.additive then 1 else 2) :
    s.handleOperator op.exprTokenType = s.pushOperator op.exprTokenType := by
  rw [State.handleOperator]
  split_ifs with hempty
  · rfl
  · cases hs : s.operatorStack with
    | nil => simp [hs] at hempty
    | cons top ops =>
        obtain ⟨p, heq, hlt⟩ := htop top (by simp [hs])
        have htop' : s.getOpTop = top := by simp [State.getOpTop, hs]
        have hne : top ≠ .unknown := by
          rintro rfl
          cases heq
        simp only [htop', check, hne, ne_eq, not_false_eq_true, decide_true, if_true, heq,
          Symbol.getPriority hop, bind, Except.bind]
        rw [if_neg (by omega)]

theorem handleOperator_calculate {top : Symbol}
    (htop : top.additive = true ∨ top.multiplicative = true)
    (hop : op.additive = true ∨ op.multiplicative = true)
    (hp : (if op.additive then 1 else 2) ≤ if top.additive then 1 else 2)
    (hn : ns.length + 2 ≤ EXPR_STACK_SZ) (ho : ops.length + 1 ≤ EXPR_STACK_SZ) :
    State.handleOperator ⟨y :: x :: ns, top.exprTokenType :: ops, t⟩ op.exprTokenType =
      (basicCalc t x y top.exprTokenType).bind fun r =>
        State.pushOperator ⟨r :: ns, ops, t⟩ op.exprTokenType := by
  have hne : top.exprTokenType ≠ .unknown := by cases top <;> simp [Symbol.exprTokenType]
  rw [State.handleOperator, if_neg (by simp)]
  simp only [State.getOpTop, headD_cons, check, hne, ne_eq, not_false_eq_true, decide_true,
    if_true, Symbol.getPriority htop, Symbol.getPriority hop, bind, Except.bind]
  rw [if_pos hp, calculateTop_eq (Symbol.isOperator htop) hn ho]
  cases basicCalc t x y top.exprTokenType <;> rfl

/-- An operator settles what waits after a flat expression. -/
theorem Expr.Flat.handleOperator {K : Symbol → Prop} (h : e.Flat K)
    (hop : op.additive = true ∨ op.multiplicative = true)
    (hK : ∀ op', K op' → (op'.additive = true ∨ op'.multiplicative = true) ∧
      (if op.additive then 1 else 2) ≤ if op'.additive then 1 else 2)
    {t : State F} (hbase : Base L s) (hdivides : e.Divides s.resultType)
    (hp : L.priority ≤ if op.additive then 1 else 2) (hpending : e.pending s = some t)
    (hroom : e.opNeed + s.operatorStack.length ≤ EXPR_STACK_SZ) :
    EndsIn (t.handleOperator op.exprTokenType) (fun u => u.pushOperator op.exprTokenType)
      (e.settled s) := by
  rcases h with hb | ⟨top, a, b, rfl, hKtop, hb⟩
  · rw [Expr.pending_of_not_binary hb] at hpending
    rw [hpending]
    obtain ⟨v, -, rfl⟩ := map_eq_some_iff.mp hpending
    exact handleOperator_push hbase.top hop hp
  · obtain ⟨htop, hle⟩ := hK top hKtop
    obtain ⟨x, hx, hpending⟩ := bind_eq_some_iff.mp hpending
    rw [Expr.pending_of_not_binary hb] at hpending
    obtain ⟨y, hy, rfl⟩ := map_eq_some_iff.mp hpending
    simp only [Expr.opNeed] at hroom
    have hn := hbase.numbers
    have hslack : L.slack ≤ 2 := by cases L <;> decide
    have hsz : EXPR_STACK_SZ = 256 := rfl
    simp only at hy ⊢
    rw [handleOperator_calculate htop hop hle (by omega) (by omega)]
    simp only [Expr.settled, Expr.value, hx, bind_some, hy]
    exact calculation (fun heq => hdivides.2.2 heq x y hx hy) fun u =>
      u.pushOperator op.exprTokenType

/-- The state after the tokens of an expression where the operators that wait have room. -/
def Expr.read (e : Expr F) (s : State F) : Option (State F) :=
  if e.opNeed + s.operatorStack.length ≤ EXPR_STACK_SZ then e.pending s else none

/-- The tokens of an expression lead to where it is read, or the evaluation stops. -/
def Reads (ts : List (Token F)) (e : Expr F) (s : State F) : Prop :=
  ∀ last : ExprTokenType, .number ∈ getNextAllowTypeList last → ∀ rest,
    ∃ last', Operand last' = true ∧
      EndsIn (analyzeLoop (ts ++ rest) last s) (analyzeLoop rest last') (e.read s)

theorem handleToken_operator {op : ExprTokenType} (h : IsOperator op = true) (s : State F)
    (val : F) : s.handleToken val op = s.handleOperator op := by
  rw [State.handleToken, if_neg (by rintro rfl; cases h), if_pos h]

omit [Double F] in
theorem symbol_allowed (hop : op.additive = true ∨ op.multiplicative = true) {last : ExprTokenType}
    (h : Operand last = true) : op.exprTokenType ∈ getNextAllowTypeList last := by
  cases last <;> cases op <;>
    simp_all [Operand, Symbol.additive, Symbol.multiplicative, Symbol.exprTokenType,
      getNextAllowTypeList]

omit [Double F] in
theorem number_allowed (hop : op.additive = true ∨ op.multiplicative = true) :
    .number ∈ getNextAllowTypeList op.exprTokenType := by
  cases op <;> simp_all [Symbol.additive, Symbol.multiplicative, Symbol.exprTokenType,
    getNextAllowTypeList]

theorem Expr.read_eq_some {t : State F} (h : e.read s = some t) :
    e.opNeed + s.operatorStack.length ≤ EXPR_STACK_SZ ∧ e.pending s = some t := by
  rw [Expr.read] at h
  split_ifs at h with hroom
  exact ⟨hroom, h⟩

theorem Expr.read_binary_none {a b : Expr F}
    (h : a.read s = none ∨ a.settled s = none ∨ EXPR_STACK_SZ ≤ s.operatorStack.length) :
    (Expr.binary op a b).read s = none := by
  rw [Expr.read]
  split_ifs with hroom
  · simp only [Expr.opNeed] at hroom
    have hsettled : a.settled s = none := by
      rcases h with h | h | h
      · rw [Expr.read, if_pos (by omega)] at h
        exact Expr.settled_of_pending_none h
      · exact h
      · omega
    rw [Expr.settled, map_eq_none_iff] at hsettled
    rw [Expr.pending, hsettled]
    rfl
  · rfl

/-- Reading an operator between two operands, where it settles what waits after the first. -/
theorem Reads.binary {us : List (Token F)} {a b : Expr F}
    (hop : op.additive = true ∨ op.multiplicative = true) (ha : Reads ts a s)
    (hsettle : ∀ t, a.pending s = some t → a.opNeed + s.operatorStack.length ≤ EXPR_STACK_SZ →
      EndsIn (t.handleOperator op.exprTokenType) (fun u => u.pushOperator op.exprTokenType)
        (a.settled s))
    (hb : ∀ x, s.operatorStack.length < EXPR_STACK_SZ → Reads us b
      ⟨x :: s.numberStack, op.exprTokenType :: s.operatorStack, a.typeAfter s.resultType⟩) :
    Reads (ts ++ .symbol op :: us) (.binary op a b) s := by
  intro last hlast rest
  rw [append_assoc, cons_append]
  obtain ⟨last₁, hoperand, hends⟩ := ha last hlast (.symbol op :: (us ++ rest))
  cases hread : a.read s with
  | none =>
      rw [hread] at hends
      rw [Expr.read_binary_none (.inl hread)]
      exact ⟨.number, rfl, hends⟩
  | some t =>
      obtain ⟨hroom, hpending⟩ := Expr.read_eq_some hread
      rw [hread] at hends
      rw [show analyzeLoop (ts ++ _) last s = _ from hends,
        analyzeLoop_symbol (symbol_allowed hop hoperand),
        handleToken_operator (Symbol.isOperator hop)]
      have hsettled := hsettle t hpending hroom
      cases hu : a.settled s with
      | none =>
          rw [hu] at hsettled
          obtain ⟨stop, hstop⟩ := hsettled
          rw [Expr.read_binary_none (.inr (.inl hu)), hstop]
          exact ⟨.number, rfl, stop, rfl⟩
      | some u =>
          rw [hu] at hsettled
          obtain ⟨x, hx, rfl⟩ := map_eq_some_iff.mp hu
          rw [show t.handleOperator op.exprTokenType = State.pushOperator ⟨x :: s.numberStack,
            s.operatorStack, a.typeAfter s.resultType⟩ op.exprTokenType from hsettled,
            State.pushOperator]
          by_cases hfull : EXPR_STACK_SZ ≤ s.operatorStack.length
          · rw [if_pos hfull, Expr.read_binary_none (.inr (.inr hfull))]
            exact ⟨.number, rfl, _, rfl⟩
          · rw [if_neg hfull]
            obtain ⟨last', hlast', hends'⟩ := hb x (by omega) _ (number_allowed hop) rest
            refine ⟨last', hlast', ?_⟩
            have heq : (Expr.binary op a b).read s = b.read ⟨x :: s.numberStack,
                op.exprTokenType :: s.operatorStack, a.typeAfter s.resultType⟩ := by
              rw [Expr.read, Expr.read, Expr.pending, hx]
              refine if_congr ?_ rfl rfl
              simp only [Expr.opNeed, length_cons]
              omega
            rw [heq]
            exact hends'

/-- Reading a number, with or without a sign. -/
theorem reads_number (hbase : Base .factor s) (t : BasicObjtype) (val : F) :
    State.handleToken { s with resultType := t } val .number =
      .ok ⟨val :: s.numberStack, s.operatorStack, t⟩ := by
  have hn := hbase.numbers
  have ho := hbase.operators
  have hsz : EXPR_STACK_SZ = 256 := rfl
  simp only [Level.slack] at hn
  rw [State.handleToken, if_pos rfl, pushNumber_eq (by simp only; omega)]

theorem Expr.read_leaf (hbinary : e.isBinary = false) (hneed : e.opNeed = 0)
    (hbase : Base .factor s) : e.read s = e.settled s := by
  rw [Expr.read, if_pos (by rw [hneed]; simpa using hbase.operators),
    Expr.pending_of_not_binary hbinary]

/-- Reading an expression in brackets. -/
theorem Reads.bracket (hd : Derives .expr ts e) (hdivides : e.Divides s.resultType)
    (hbase : Base .factor s)
    (h : s.operatorStack.length < EXPR_STACK_SZ →
      Reads ts e { s with operatorStack := .leftBracket :: s.operatorStack }) :
    Reads (.symbol .leftBracket :: (ts ++ [.symbol .rightBracket])) (.bracket e) s := by
  intro last hlast rest
  have hallowed : Symbol.leftBracket.exprTokenType ∈ getNextAllowTypeList last := by
    cases last <;> simp_all [getNextAllowTypeList, Symbol.exprTokenType]
  rw [cons_append, append_assoc, analyzeLoop_symbol hallowed]
  rw [show s.handleToken (ofInt 0) Symbol.leftBracket.exprTokenType = s.pushOperator .leftBracket
    from rfl, State.pushOperator]
  by_cases hfull : EXPR_STACK_SZ ≤ s.operatorStack.length
  · rw [if_pos hfull, Expr.read, if_neg (by simp only [Expr.opNeed]; omega)]
    exact ⟨.number, rfl, _, rfl⟩
  · rw [if_neg hfull]
    obtain ⟨last₁, hoperand, hends⟩ := h (by omega) .leftBracket (by decide)
      (.symbol .rightBracket :: rest)
    refine ⟨.rightBracket, rfl, ?_⟩
    have hvalue : ∀ u, e.settled { s with operatorStack := .leftBracket :: s.operatorStack } = u →
        (Expr.bracket e).settled s =
          u.map fun u => { u with operatorStack := s.operatorStack } := by
      rintro _ rfl
      simp only [Expr.settled, Expr.value]
      cases e.value s.resultType <;> rfl
    have hneed : (Expr.bracket e).opNeed + s.operatorStack.length =
        e.opNeed + (s.operatorStack.length + 1) := by
      simp only [Expr.opNeed]
      omega
    rw [Expr.read, hneed]
    cases hread : e.read { s with operatorStack := .leftBracket :: s.operatorStack } with
    | none =>
        rw [hread] at hends
        rw [Expr.read, length_cons] at hread
        split_ifs at hread ⊢ with hroom
        · have hnone := hvalue _ (Expr.settled_of_pending_none hread)
          rw [Expr.pending_of_not_binary rfl, hnone]
          exact hends
        · exact hends
    | some t =>
        rw [hread] at hends
        obtain ⟨hroom, hpending⟩ := Expr.read_eq_some hread
        obtain ⟨hlen, -, hle⟩ := Expr.pending_length hpending
        have hslack := hd.pending_slack hpending
        have hn := hbase.numbers
        have hsz : EXPR_STACK_SZ = 256 := rfl
        simp only [length_cons, Level.slack] at hroom hlen hle hslack hn
        have hclose := hd.settle closeBracket_calculates hpending hdivides (by omega) (by omega)
        have hright : Symbol.rightBracket.exprTokenType ∈ getNextAllowTypeList last₁ := by
          cases last₁ <;> simp_all [Operand, getNextAllowTypeList, Symbol.exprTokenType]
        have hrun : analyzeLoop (ts ++ .symbol .rightBracket :: rest) .leftBracket
            { s with operatorStack := .leftBracket :: s.operatorStack } =
            (State.closeBracket t.operatorStack t).bind fun u =>
              analyzeLoop rest .rightBracket u :=
          hends.trans (analyzeLoop_symbol hright rest t)
        rw [if_pos hroom, Expr.pending_of_not_binary rfl, hvalue _ rfl]
        refine (congrArg (EndsIn · _ _) hrun).mpr ?_
        cases hu : e.settled { s with operatorStack := .leftBracket :: s.operatorStack } with
        | none =>
            rw [hu] at hclose
            obtain ⟨stop, hstop⟩ := hclose
            rw [hstop]
            exact ⟨stop, rfl⟩
        | some u =>
            rw [hu] at hclose
            obtain ⟨v, -, rfl⟩ := map_eq_some_iff.mp hu
            have hpass : State.closeBracket (.leftBracket :: s.operatorStack) ⟨v :: s.numberStack,
                .leftBracket :: s.operatorStack, e.typeAfter s.resultType⟩ =
                .ok ⟨v :: s.numberStack, s.operatorStack, e.typeAfter s.resultType⟩ := by
              rw [State.closeBracket, popOperator_cons (by omega)]
              rfl
            rw [show State.closeBracket t.operatorStack t = _ from Eq.trans hclose hpass]
            rfl

theorem Derives.reads (h : Derives L ts e) :
    ∀ {s : State F}, e.inOrder = true → e.Divides s.resultType → Base L s → Reads ts e s := by
  induction h with
  | number eId value =>
      intro s _ _ hbase last hlast rest
      rw [Expr.read_leaf rfl rfl hbase]
      refine ⟨.number, rfl, ?_⟩
      rw [cons_append, analyzeLoop_number hlast, State.refresh, reads_number hbase]
      rfl
  | minus eId value =>
      intro s _ _ hbase last hlast rest
      rw [Expr.read_leaf rfl rfl hbase]
      refine ⟨.number, rfl, ?_⟩
      rw [cons_append, cons_append, analyzeLoop_minus hlast, State.refresh, State.refresh,
        reads_number hbase]
      rfl
  | @bracket ts e hexpr ih =>
      intro s hord hdivides hbase
      refine Reads.bracket hexpr hdivides hbase fun hlt => ih hord hdivides ?_
      refine ⟨?_, ?_, hlt⟩
      · rintro op ⟨⟩
        exact ⟨0, rfl, Nat.zero_lt_one⟩
      · have hn := hbase.numbers
        simp only [Level.slack, length_cons] at hn ⊢
        omega
  | ofFactor _ ih | ofTerm _ ih =>
      exact fun hord hdivides hbase =>
        ih hord hdivides (hbase.weaken (by decide) (by decide))
  | @multiply op ts us a b hop ha hb iha ihb =>
      intro s hord hdivides hbase
      rw [Expr.inOrder, Bool.and_eq_true, Bool.and_eq_true] at hord
      refine Reads.binary (.inr hop) (iha hord.1.1 hdivides.1 hbase) (fun t hpending hroom => ?_)
        fun x hlt => ihb hord.1.2 hdivides.2.1 ?_
      · refine ha.flat_term.handleOperator (.inr hop) (fun op' hop' => ⟨.inr hop', ?_⟩) hbase
          hdivides.1 ?_ hpending hroom
        · rw [Symbol.not_additive hop', if_neg Bool.false_ne_true]
          split_ifs <;> decide
        · rw [Symbol.not_additive hop]
          decide
      · exact hbase.push (.inr hop) (by rw [Symbol.not_additive hop]; decide) (by decide) hlt
  | @add op ts us a b hop ha hb iha ihb =>
      intro s hord hdivides hbase
      rw [Expr.inOrder, Bool.and_eq_true, Bool.and_eq_true] at hord
      refine Reads.binary (.inl hop) (iha hord.1.1 hdivides.1 hbase) (fun t hpending hroom => ?_)
        fun x hlt => ihb hord.1.2 hdivides.2.1 ?_
      · have hwaits : a.waits .none ≠ ⟨true, true⟩ := by
          simpa [hop] using hord.2
        refine (ha.flat_expr hwaits).handleOperator (.inl hop) (fun op' hop' => ⟨hop', ?_⟩) hbase
          hdivides.1 ?_ hpending hroom
        · rw [hop, if_pos rfl]
          split_ifs <;> decide
        · rw [hop]
          decide
      · exact hbase.push (.inl hop) (by rw [hop]; decide) (by decide) hlt

end V2I.Rpcc
