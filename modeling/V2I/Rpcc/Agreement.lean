import V2I.Rpcc.Reading

/-!
# V2I.Rpcc.Agreement

The evaluator against ordinary arithmetic: they agree where the operators are in order and what is
divided is `Divisible`, and not where an additive operator follows a multiplicative one with an
additive one below it, as in `1-2*3-4`.
-/

namespace V2I.Rpcc

open Double

variable {F : Type} [Double F]

theorem analyzeLoop_end {rest : List (Token F)} (h : rest = [] ∨ ∃ rest', rest = .other :: rest')
    (last : ExprTokenType) (s : State F) : analyzeLoop rest last s = .ok s := by
  rcases h with rfl | ⟨rest', rfl⟩ <;> rfl

/-- What is in order is evaluated to its value where the operators have room. -/
def Expr.result (e : Expr F) : Option (F × BasicObjtype) :=
  if e.opNeed ≤ EXPR_STACK_SZ then (e.value .unknown).map fun v => (v, e.typeAfter .unknown)
  else none

variable {e : Expr F}

theorem Derives.analyzeExpression {tokens : List (Token F)}
    (h : Derives .expr (expressionPrefix tokens) e) (hord : e.inOrder = true)
    (hdivides : e.Divides .unknown) :
    match e.result with
    | some r => V2I.Rpcc.analyzeExpression tokens = .ok r
    | none => ∃ stop, V2I.Rpcc.analyzeExpression tokens = .error stop := by
  obtain ⟨rest, htokens, hrest⟩ := expressionPrefix_append tokens
  have hbase : Base .expr (State.reset : State F) := ⟨by rintro _ ⟨⟩, Nat.le_refl _, Nat.zero_le _⟩
  obtain ⟨last, -, hends⟩ := h.reads hord hdivides hbase .unknown (by decide) rest
  rw [← htokens] at hends
  rw [Expr.result]
  cases hread : e.read State.reset with
  | none =>
      rw [hread] at hends
      obtain ⟨stop, hstop⟩ := hends
      have hnone : e.opNeed ≤ EXPR_STACK_SZ → e.value .unknown = none := by
        intro hroom
        rw [Expr.read, if_pos (by simpa [State.reset] using hroom)] at hread
        simpa [Expr.settled, State.reset] using Expr.settled_of_pending_none hread
      have hresult : ∃ stop, V2I.Rpcc.analyzeExpression tokens = .error stop :=
        ⟨stop, by rw [V2I.Rpcc.analyzeExpression, hstop]; rfl⟩
      split_ifs with hroom
      · rw [hnone hroom]
        exact hresult
      · exact hresult
  | some t =>
      rw [hread] at hends
      obtain ⟨hroom, hpending⟩ := Expr.read_eq_some hread
      obtain ⟨hlen, -, hle⟩ := Expr.pending_length hpending
      have hslack := h.pending_slack hpending
      have hsz : EXPR_STACK_SZ = 256 := rfl
      simp only [State.reset, List.length_nil, Level.slack] at hroom hlen hle hslack
      have hrest' := h.settle calculateRest_calculates hpending hdivides (by omega) (by omega)
      have hrun : V2I.Rpcc.analyzeExpression tokens =
          (State.calculateRest t.operatorStack t).bind fun s => s.popNumber.bind fun p =>
            (check p.2.numberStack.isEmpty).bind fun _ => .ok (p.1, p.2.resultType) := by
        rw [V2I.Rpcc.analyzeExpression,
          show analyzeLoop tokens .unknown .reset = .ok t from
            Eq.trans hends (analyzeLoop_end hrest _ _)]
        rfl
      rw [if_pos (by omega), hrun]
      cases hv : e.value .unknown with
      | none =>
          rw [Expr.settled, show (State.reset : State F).resultType = .unknown from rfl,
            hv] at hrest'
          obtain ⟨stop, hstop⟩ := hrest'
          rw [hstop]
          exact ⟨stop, rfl⟩
      | some v =>
          rw [Expr.settled, show (State.reset : State F).resultType = .unknown from rfl,
            hv] at hrest'
          rw [show State.calculateRest t.operatorStack t = _ from hrest']
          rfl

variable {ts : List (Token F)} {L : Level}

/-- The result types of integers. -/
def IntType (t : BasicObjtype) : Prop := t = .int32 ∨ t = .uint32

variable {t : BasicObjtype}

theorem intType_refresh (h : t = .unknown ∨ IntType t) {eId : NumberId} (hId : eId ≠ .float) :
    IntType (refreshFinalResultType t (tokenIDToBasicObjectType eId)) := by
  rcases h with rfl | rfl | rfl <;> cases eId <;>
    simp_all [IntType, refreshFinalResultType, tokenIDToBasicObjectType, convertNumberTypeToLevel]

theorem intType_refresh_int32 (h : IntType t) : IntType (refreshFinalResultType t .int32) := by
  rcases h with rfl | rfl <;> simp [IntType, refreshFinalResultType, convertNumberTypeToLevel]

variable {denotes : F → ℤ → Prop} {n : ℤ}

omit [Double F] in
theorem IntValue.intType (h : IntValue denotes e n) (ht : t = .unknown ∨ IntType t) :
    IntType (e.typeAfter t) := by
  induction h generalizing t with
  | number hId _ _ => exact intType_refresh ht hId
  | minus hId _ _ => exact intType_refresh_int32 (intType_refresh ht hId)
  | bracket _ ih => exact ih ht
  | binary _ _ _ _ iha ihb => exact ihb (.inr (iha ht))

omit [Double F] in
theorem IntValue.fits (h : IntValue denotes e n) : Fits n := by
  induction h with
  | number _ _ hfits | minus _ _ hfits | binary _ _ _ hfits => exact hfits
  | bracket _ ih => exact ih

variable {x : F}

/-- An operation on integers is exact where the result fits. -/
theorem IntExact.operate (hexact : IntExact denotes) (ht : IntType t) {y : F} {m z : ℤ}
    (hx : denotes x m) (hy : denotes y n) (hm : Fits m) (hn : Fits n) {op : Symbol}
    (hz : intCalc m n op = some z) (hfits : Fits z) :
    ∃ v, V2I.Rpcc.operate t x y op = some v ∧ denotes v z := by
  cases op with
  | add =>
      cases hz
      exact ⟨_, rfl, hexact.add hx hy hm hn hfits⟩
  | sub =>
      cases hz
      exact ⟨_, rfl, hexact.sub hx hy hm hn hfits⟩
  | mul =>
      cases hz
      exact ⟨_, rfl, hexact.mul hx hy hm hn hfits⟩
  | div =>
      rw [intCalc] at hz
      split_ifs at hz with hzero
      cases hz
      have htype : t.dividesInt := ht.imp_right .inr
      refine ⟨Double.ofInt (m.tdiv n), ?_, hexact.ofInt hfits⟩
      rw [V2I.Rpcc.operate, if_pos htype, hexact.toInt hx hm, hexact.toInt hy hn, if_neg hzero]
  | leftBracket | rightBracket => cases hz

/-- The value of an expression of integers that fit is its integer value. -/
theorem IntValue.value (hexact : IntExact denotes) (h : IntValue denotes e n)
    (ht : t = .unknown ∨ IntType t) : ∃ v, e.value t = some v ∧ denotes v n := by
  induction h generalizing t with
  | number _ hv _ => exact ⟨_, rfl, hv⟩
  | minus _ hv hfits => exact ⟨_, rfl, hexact.neg hv hfits⟩
  | bracket _ ih => exact ih ht
  | @binary op a b m n z ha hb hz hfits iha ihb =>
      obtain ⟨x, hx, hxm⟩ := iha ht
      obtain ⟨y, hy, hyn⟩ := ihb (.inr (ha.intType ht))
      obtain ⟨v, hv, hvz⟩ := hexact.operate (hb.intType (.inr (ha.intType ht))) hxm hyn ha.fits
        hb.fits hz hfits
      refine ⟨v, ?_, hvz⟩
      rw [Expr.value, hx, Option.bind_some, hy, Option.bind_some, Expr.typeAfter, hv]

/-- The evaluator agrees with ordinary arithmetic: no assertion fails, it succeeds exactly if the
longest prefix is an expression without a division by zero and within the stacks, and an expression
of integers gives its integer value. -/
def Agrees (tokens : List (Token F)) : Prop :=
  analyzeExpression tokens ≠ .error .assertion ∧
    ((∃ r, analyzeExpression tokens = .ok r) ↔
      ∃ e, Derives .expr (expressionPrefix tokens) e ∧ (e.value .unknown).isSome = true ∧
        e.WithinLimits) ∧
    ∀ denotes : F → ℤ → Prop, IntExact denotes → ∀ e n,
      Derives .expr (expressionPrefix tokens) e → IntValue denotes e n →
        ∀ r, analyzeExpression tokens = .ok r → denotes r.1 n

variable {m : NumberId}

end V2I.Rpcc
