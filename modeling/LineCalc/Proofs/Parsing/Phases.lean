import LineCalc.Proofs.Parsing.Grammar

/-!
# Operands and operators in turn

Whether tokens are an expression does not depend on how its operators group. The tokens only have
to go through two phases in turn: an operand is expected, and then what can follow one. This is
said here of tokens with clear signs (`SignsClear`), those in which no sign stands directly before
another kind of operator. All that the grammar derives goes through the phases
(`Derives.beforeOperand`).
-/

namespace LineCalc

open LineCalc.Parser (Production)

/-- A token before others is not a sign before an operator that is no sign. -/
def ClearBefore (token : Token) (w : List Token) : Prop :=
  token.kind.isSign → ¬(nextKind w).joinsFactors ∧ nextKind w ≠ .caret

/-- Whether a token is clear before others shows in its kind and that of the next one. -/
instance (token : Token) (w : List Token) : Decidable (ClearBefore token w) :=
  inferInstanceAs (Decidable (token.kind.isSign → _))

/-- No sign stands directly before an operator that is no sign. -/
def SignsClear : List Token → Prop
  | [] => True
  | token :: w => ClearBefore token w ∧ SignsClear w

/-- Whether all signs of a list are clear is decided from one token to the next. -/
instance SignsClear.decide : (ts : List Token) → Decidable (SignsClear ts)
  | [] => inferInstanceAs (Decidable True)
  | token :: w =>
    have := SignsClear.decide w
    inferInstanceAs (Decidable (ClearBefore token w ∧ SignsClear w))

/-- What is clear before more tokens is clear before fewer. -/
theorem ClearBefore.of_append {token : Token} {w vs : List Token}
    (h : ClearBefore token (w ++ vs)) : ClearBefore token w := by
  intro hsign
  cases w with
  | nil => simp [nextKind, TokenKind.joinsFactors]
  | cons next w => exact h hsign

/-- The end of tokens with clear signs has clear signs. -/
theorem SignsClear.right {us ts : List Token} (h : SignsClear (us ++ ts)) : SignsClear ts := by
  induction us with
  | nil => exact h
  | cons token us ih => exact ih h.2

/-- The start of tokens with clear signs has clear signs. -/
theorem SignsClear.left {ts vs : List Token} (h : SignsClear (ts ++ vs)) : SignsClear ts := by
  induction ts with
  | nil => trivial
  | cons token ts ih => exact ⟨h.1.of_append, ih h.2⟩

/-! ## Phases -/

mutual

/-- The tokens up to the end of an expression, from where an operand is expected. -/
inductive BeforeOperand : List Token → Prop
  | leaf {token : Token} {w : List Token}
    (h : token.kind = .number ∨ token.kind = .identifier ∨ token.kind.isOperator)
    (hclear : ClearBefore token w) (hw : AfterOperand w) : BeforeOperand (token :: w)
  | sign {sign : Token} {w : List Token} (h : sign.kind.isSign) (hclear : ClearBefore sign w)
    (hw : BeforeOperand w) : BeforeOperand (sign :: w)
  | group {opening closing : Token} {ts w : List Token} (ho : opening.kind = .leftParenthesis)
    (hts : BeforeOperand ts) (hc : closing.kind = .rightParenthesis) (hw : AfterOperand w) :
    BeforeOperand (opening :: ts ++ closing :: w)

/-- The tokens up to the end of an expression, behind an operand. -/
inductive AfterOperand : List Token → Prop
  | nil : AfterOperand []
  | operator {operator : Token} {w : List Token} (h : operator.kind.isOperator)
    (hclear : ClearBefore operator w) (hw : BeforeOperand w) : AfterOperand (operator :: w)
  | call {opening closing : Token} {us w : List Token} (ho : opening.kind = .leftParenthesis)
    (hus : InArguments us) (hc : closing.kind = .rightParenthesis) (hw : AfterOperand w) :
    AfterOperand (opening :: us ++ closing :: w)

/-- The tokens of the arguments of a call. -/
inductive InArguments : List Token → Prop
  | none : InArguments []
  | some {ts us : List Token} (h : BeforeOperand ts) (hus : InMoreArguments us) :
    InArguments (ts ++ us)

/-- The tokens of the arguments after the first, each with the comma before it. -/
inductive InMoreArguments : List Token → Prop
  | nil : InMoreArguments []
  | cons {comma : Token} {ts us : List Token} (hcomma : comma.kind = .comma)
    (h : BeforeOperand ts) (hus : InMoreArguments us) : InMoreArguments (comma :: ts ++ us)

end

/-- The arguments after the first are closed by what closes the call. -/
theorem InMoreArguments.closes {us z : List Token} (h : InMoreArguments us)
    (hz : nextKind z = .rightParenthesis) : Closes (us ++ z) := by
  cases h with
  | nil => exact .inr (.inr hz)
  | cons hcomma _ _ => exact .inr (.inl hcomma)

/-- With clear signs, the tokens stand where an operand is expected, before any tokens that can
stand behind one. -/
def OperandPhase (ts : List Token) : Prop :=
  ∀ rest, SignsClear (ts ++ rest) → AfterOperand rest → BeforeOperand (ts ++ rest)

/-- A sign, what joins factors and a caret are operators. -/
theorem isOperator_of_kind {token : Token}
    (h : (token.kind.isSign ∨ token.kind.joinsFactors) ∨ token.kind = .caret) :
    token.kind.isOperator := by
  simpa [TokenKind.isOperator] using h

/-- Two operands with an operator between them stand where one does. -/
theorem OperandPhase.join {operator : Token} {ts us : List Token} (h : OperandPhase ts)
    (ho : operator.kind.isOperator) (hus : OperandPhase us) :
    OperandPhase (ts ++ operator :: us) := by
  intro rest hclear hrest
  rw [List.append_assoc] at hclear ⊢
  have hoperator : SignsClear (operator :: (us ++ rest)) := hclear.right
  have hoperand : BeforeOperand (us ++ rest) := hus rest hoperator.2 hrest
  exact h _ hclear (.operator ho hoperator.1 hoperand)

mutual

/-- Where an operand is expected there can be what a production derives, if the tokens after it can
stand behind an operand. -/
theorem Derives.beforeOperand : ∀ {p : Production} {ts : List Token} {e : Expr}, Derives p ts e →
    OperandPhase ts
  | _, _, _, .number h, _, hclear, hrest => .leaf (.inl h) hclear.1 hrest
  | _, _, _, .name h, _, hclear, hrest => .leaf (.inr h) hclear.1 hrest
  | _, _, _, @Derives.group opening closing ts _ ho h hc, rest, hclear, hrest => by
    rw [List.append_assoc] at hclear
    -- The closing parenthesis ends what is inside, so that has nothing behind it.
    have hinner := h.beforeOperand [] (by simpa using hclear.2.left) .nil
    have hgroup := BeforeOperand.group ho hinner hc hrest
    simpa using hgroup
  | _, _, _, @Derives.call opening closing ts us _ _ h ho hus hc, rest, hclear, hrest => by
    have hclear : SignsClear (ts ++ (opening :: (us ++ closing :: rest))) := by simpa using hclear
    have hcallee := h.beforeOperand (opening :: us ++ closing :: rest) hclear
      (.call ho (hus.inArguments hclear.right.2.left) hc hrest)
    simpa using hcallee
  | _, _, _, .primary h, rest, hclear, hrest => h.beforeOperand rest hclear hrest
  | _, _, _, .power h hcaret hus, rest, hclear, hrest => by
    have hoperator := isOperator_of_kind (.inr hcaret)
    exact h.beforeOperand.join hoperator hus.beforeOperand rest hclear hrest
  | _, _, _, .factor h, rest, hclear, hrest => h.beforeOperand rest hclear hrest
  | _, _, _, .signed hsign h, rest, hclear, hrest =>
    .sign hsign hclear.1 (h.beforeOperand rest hclear.2 hrest)
  | _, _, _, .term h, rest, hclear, hrest => h.beforeOperand rest hclear hrest
  | _, _, _, .product h ho hus, rest, hclear, hrest => by
    have hoperator := isOperator_of_kind (.inl (.inr ho))
    exact h.beforeOperand.join hoperator hus.beforeOperand rest hclear hrest
  | _, _, _, .expression h, rest, hclear, hrest => h.beforeOperand rest hclear hrest
  | _, _, _, .sum h ho hus, rest, hclear, hrest => by
    have hoperator := isOperator_of_kind (.inl (.inl ho))
    exact h.beforeOperand.join hoperator hus.beforeOperand rest hclear hrest
  | _, _, _, .complete h, rest, hclear, hrest => h.beforeOperand rest hclear hrest

/-- The arguments of a call are expressions. -/
theorem DerivesArguments.inArguments : ∀ {ts : List Token} {es : List Expr},
    DerivesArguments ts es → SignsClear ts → InArguments ts
  | _, _, .none, _ => .none
  | _, _, @DerivesArguments.some ts us _ _ h hus, hclear => by
    have hfirst := h.beforeOperand [] (by simpa using hclear.left) .nil
    rw [List.append_nil] at hfirst
    exact .some hfirst (hus.inMoreArguments hclear.right)

/-- The arguments of a call after the first are expressions. -/
theorem DerivesMore.inMoreArguments : ∀ {ts : List Token} {es : List Expr},
    DerivesMore ts es → SignsClear ts → InMoreArguments ts
  | _, _, .nil, _ => .nil
  | _, _, @DerivesMore.cons comma ts us _ _ hcomma h hus, hclear => by
    have hfirst := h.beforeOperand [] (by simpa using SignsClear.left hclear.2) .nil
    rw [List.append_nil] at hfirst
    exact .cons hcomma hfirst (hus.inMoreArguments (SignsClear.right hclear.2))

end

end LineCalc
