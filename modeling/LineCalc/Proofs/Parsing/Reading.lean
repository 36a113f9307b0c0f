import LineCalc.Proofs.Parsing.Equations

/-!
# The rules read the grammar

What a production derives on a list of tokens, the rules read. Signs are judged here by the notion
of where factors end that the rules themselves have, `RuleSkips`.

The induction on derivations is about where the rules come, not about where they end: having read
the tokens of an atom, a rule goes on to the calls behind it with the atom as the callee, and after
a term or an expression it goes on to more factors or more terms (`Reaches`). The derivations group
from the left, so each of them hands over to the next in this form. Where nothing goes on, the
rules stop.
-/

namespace LineCalc.Words

open LineCalc.Parser (Production)

variable {last : Token}

/-- The rules read a factor from some tokens up to others. -/
def RuleSkips (last : Token) (w rest : List Token) : Prop :=
  ∃ t, (rules : Parser.Rules (Words last)).factor ⟨w⟩ = .ok t ⟨rest⟩

/-! ## Signs -/

/-- Two factors are read one after the other. -/
theorem two_factors_iff (w : List Token) :
    (∃ u s, (discard rules.factor >>= fun _ => discard rules.factor :
        Parser (Words last) Unit) ⟨w⟩ = .ok u s) ↔
      ∃ v v', RuleSkips last w v ∧ RuleSkips last v v' := by
  rw [Parser.discard_bind]
  simp only [Parser.bind_eq_ok, Parser.discard_eq_ok]
  constructor
  · rintro ⟨u, ⟨v'⟩, t, ⟨v⟩, hw, t', hv⟩
    exact ⟨v, v', ⟨t, hw⟩, t', hv⟩
  · rintro ⟨v, v', ⟨t, hw⟩, t', hv⟩
    exact ⟨(), ⟨v'⟩, t, ⟨v⟩, hw, t', hv⟩

section

variable (hlast : last.kind = .endOfFile)
include hlast

/-- The test for operands tells whether an operator and two factors follow, and stays in place. -/
theorem signIsOperand_cons (sign : Token) (w : List Token) :
    ∃ operand, Parser.signIsOperand (rules : Parser.Rules (Words last)) ⟨sign :: w⟩ =
        .ok operand ⟨sign :: w⟩ ∧
      (operand = true ↔ ((nextKind w).joinsFactors ∨ nextKind w = .caret) ∧
        ∃ v v', RuleSkips last w v ∧ RuleSkips last v v') := by
  rw [← two_factors_iff, ← kind_headD hlast]
  have htest : Parser.signIsOperand (rules : Parser.Rules (Words last)) ⟨sign :: w⟩ =
      Parser.succeeds (fun _ =>
        (if (w.headD last).kind.joinsFactors ∨ (w.headD last).kind = .caret then
          discard rules.factor >>= fun _ => discard rules.factor
        else throw ⟨[], w.headD last⟩ : Parser (Words last) Unit) ⟨w⟩) ⟨sign :: w⟩ := by
    unfold Parser.signIsOperand
    rw [Parser.discard_bind]
    rfl
  rw [htest]
  unfold Parser.succeeds
  by_cases hnext : (w.headD last).kind.joinsFactors ∨ (w.headD last).kind = .caret
  · rw [if_pos hnext]
    generalize (discard rules.factor >>= fun _ => discard rules.factor :
      Parser (Words last) Unit) ⟨w⟩ = result
    cases result with
    | ok u s => exact ⟨true, rfl, fun _ => ⟨hnext, u, s, rfl⟩, fun _ => rfl⟩
    | error e s => exact ⟨false, rfl, by simp⟩
  · rw [if_neg hnext]
    exact ⟨false, rfl, by simp, fun h => absurd h.1 hnext⟩

/-- Before an operand the rule for factors is that for primaries. -/
theorem factor_operand {sign : Token} (hsign : sign.kind.isSign) {w : List Token}
    (h : Operand (RuleSkips last) w) :
    (rules : Parser.Rules (Words last)).factor ⟨sign :: w⟩ =
      Parser.primary rules ⟨sign :: w⟩ := by
  obtain ⟨operand, htest, hiff⟩ := signIsOperand_cons hlast sign w
  rw [factor_cons hlast hsign, Parser.bind_of_ok htest]
  by_cases hoperand : operand = true
  · rw [if_pos hoperand]
  · rw [if_neg hoperand]
    have hno : ¬∃ v, RuleSkips last w v := h.resolve_left fun htwo => hoperand (hiff.mpr htwo)
    rw [Parser.discard_bind]
    generalize hresult : (rules : Parser.Rules (Words last)).factor ⟨w⟩ = result
    cases result with
    | ok t s => exact absurd ⟨s.list, t, hresult⟩ hno
    | error e s =>
      have hattempt : (Parser.advance >>= fun _ => rules.factor) (⟨sign :: w⟩ : Words last) =
          .error e s := hresult
      rw [Parser.bind_of_ok (Parser.attempt?_of_error hattempt)]

/-- Before anything else a sign is called with the factor behind it. -/
theorem factor_unary {sign : Token} (hsign : sign.kind.isSign) {w rest : List Token}
    {t : SyntaxTree} (h : ¬Operand (RuleSkips last) w)
    (ht : (rules : Parser.Rules (Words last)).factor ⟨w⟩ = .ok t ⟨rest⟩) :
    (rules : Parser.Rules (Words last)).factor ⟨sign :: w⟩ =
      .ok (.call (.leaf sign) [t]) ⟨rest⟩ := by
  obtain ⟨operand, htest, hiff⟩ := signIsOperand_cons hlast sign w
  have hoperand : ¬operand = true := fun hoperand => h (.inl (hiff.mp hoperand))
  have hattempt : (Parser.advance >>= fun _ => rules.factor) (⟨sign :: w⟩ : Words last) =
      .ok t ⟨rest⟩ := ht
  rw [factor_cons hlast hsign, Parser.bind_of_ok htest, if_neg hoperand, Parser.discard_bind,
    Parser.bind_of_ok (Parser.attempt?_of_ok hattempt)]
  rfl

end

/-! ## From a derivation to a success -/

/-- What the rules do with tokens that a production derives. Before tokens that go on with them
they need not stop, so this is said only of the rules that go on themselves: an atom is a callee,
a term is the left operand of a product, and an expression that of a sum. -/
def Reaches (last : Token) : Production → List Token → List Token → SyntaxTree → Prop
  | .atom, ts, after, t =>
    Parser.atom (rules : Parser.Rules (Words last)) ⟨ts ++ after⟩ = rules.calls t ⟨after⟩
  | .primary, ts, after, t => ¬Continues after →
    Parser.primary (rules : Parser.Rules (Words last)) ⟨ts ++ after⟩ = .ok t ⟨after⟩
  | .factor, ts, after, t => ¬Continues after →
    (rules : Parser.Rules (Words last)).factor ⟨ts ++ after⟩ = .ok t ⟨after⟩
  | .term, ts, after, t => ¬Continues after →
    (rules : Parser.Rules (Words last)).term ⟨ts ++ after⟩ = rules.moreFactors t ⟨after⟩
  | .expression, ts, after, t => ¬Continues after → ¬(nextKind after).joinsFactors →
    (rules : Parser.Rules (Words last)).expression ⟨ts ++ after⟩ = rules.moreTerms t ⟨after⟩
  | .complete, ts, after, t =>
    (rules : Parser.Rules (Words last)).expression ⟨ts ++ after⟩ = .ok t ⟨after⟩

/-- An expression that is reached before tokens that do not go on with it has been read. -/
theorem Reaches.expression_eq_ok (hlast : last.kind = .endOfFile) {ts after : List Token}
    {t : SyntaxTree} (h : Reaches last .expression ts after t) (hc : ¬Continues after)
    (hj : ¬(nextKind after).joinsFactors) (hs : ¬(nextKind after).isSign) :
    (rules : Parser.Rules (Words last)).expression ⟨ts ++ after⟩ = .ok t ⟨after⟩ := by
  rw [h hc hj, moreTerms_of_not hlast hs]

/-- A closing parenthesis is expected and comes. -/
theorem expect_bind_cons {α : Type} {kind : TokenKind} {token : Token} (h : token.kind = kind)
    (p : Parser (Words last) α) (w : List Token) :
    (Parser.expect kind >>= fun _ => p) ⟨token :: w⟩ = p ⟨w⟩ := by
  have hexpect : Parser.expect kind (⟨token :: w⟩ : Words last) = .ok token ⟨w⟩ := by
    show (if token.kind = kind then pure token else throw ⟨[kind], token⟩ :
      Parser (Words last) Token) ⟨w⟩ = _
    rw [if_pos h]
    rfl
  rw [Parser.bind_of_ok hexpect]

/-- Where an expression has to be at its end, nothing goes on. -/
theorem not_continues_of_closes {w : List Token} (h : Closes w) :
    ¬Continues w ∧ ¬(nextKind w).joinsFactors ∧ ¬(nextKind w).isSign := by
  unfold Continues
  rcases h with h | h | h <;> simp [h, TokenKind.joinsFactors, TokenKind.isSign]

/-- What joins factors does not go on with the factor before it. -/
theorem not_continues_of_joins {w : List Token} (h : (nextKind w).joinsFactors) : ¬Continues w := by
  rintro (hw | hw) <;> simp [hw, TokenKind.joinsFactors] at h

/-- A sign does not go on with the term before it. -/
theorem not_continues_of_sign {w : List Token} (h : (nextKind w).isSign) :
    ¬Continues w ∧ ¬(nextKind w).joinsFactors := by
  unfold Continues
  generalize nextKind w = kind at h ⊢
  cases kind <;> simp_all [TokenKind.isSign, TokenKind.joinsFactors]

section

variable (hlast : last.kind = .endOfFile)
include hlast

/-- No factor starts where an expression has to be at its end. -/
theorem factor_stuck {w : List Token} (h : Closes w) :
    (rules : Parser.Rules (Words last)).factor ⟨w⟩ =
      .error ⟨Parser.atomKinds, w.headD last⟩ ⟨w.tail⟩ := by
  have hkinds : nextKind w ≠ .number ∧ nextKind w ≠ .identifier ∧ ¬(nextKind w).isOperator ∧
      nextKind w ≠ .leftParenthesis ∧ ¬(nextKind w).isSign := by
    rcases h with h | h | h <;>
      simp [h, TokenKind.isOperator, TokenKind.isSign, TokenKind.joinsFactors]
  obtain ⟨hnumber, hname, hoperator, hopen, hsign⟩ := hkinds
  rw [factor_of_not hlast hsign, primary_eq, Parser.bind_apply,
    atom_stuck hlast hnumber hname hoperator hopen]

/-- No expression starts where one has to be at its end. -/
theorem expression_stuck {w : List Token} (h : Closes w) :
    (rules : Parser.Rules (Words last)).expression ⟨w⟩ =
      .error ⟨Parser.atomKinds, w.headD last⟩ ⟨w.tail⟩ := by
  rw [expression_eq hlast, Parser.bind_apply, term_eq hlast, Parser.bind_apply,
    factor_stuck hlast h]

mutual

/-- The rules reach what is behind tokens that a production derives. -/
theorem reaches_of_reads : ∀ {p : Production} {ts after : List Token} {t : SyntaxTree},
    ReadsWith (RuleSkips last) p ts after t → Reaches last p ts after t
  | _, _, _, _, .leaf h => atom_leaf hlast h _
  | _, _, _, _, .group ho h hc => by
    obtain ⟨hnext, hjoins, hsign⟩ := not_continues_of_closes (w := _ :: _) (.inr (.inr hc))
    have hinner := (reaches_of_reads h).expression_eq_ok hlast hnext hjoins hsign
    simp only [Reaches, List.cons_append, List.append_assoc, List.nil_append]
    rw [atom_group hlast ho, Parser.bind_of_ok hinner, expect_bind_cons hc]
  | _, _, _, _, .call h ho hus hc => by
    have hcallee := reaches_of_reads h
    have harguments := arguments_of_reads hus hc
    simp only [Reaches, List.cons_append, List.append_assoc, List.nil_append] at hcallee ⊢
    rw [hcallee, calls_cons hlast ho, Parser.bind_of_ok harguments, expect_bind_cons hc]
  | _, _, _, _, .primary h => by
    intro hafter
    -- No call goes on with the atom, so its calls stop, and no power goes on with it either.
    have hatom := reaches_of_reads h
    simp only [Reaches] at hatom
    rw [calls_of_ne hlast fun hopen => hafter (.inl hopen)] at hatom
    exact primary_of_atom hlast hatom fun hcaret => hafter (.inr hcaret)
  | _, _, _, _, .power h hcaret hus => by
    intro hafter
    have hatom := reaches_of_reads h
    have hexponent := reaches_of_reads hus hafter
    simp only [Reaches, List.cons_append] at hatom
    rw [calls_of_ne hlast (by simp [nextKind, hcaret])] at hatom
    rw [List.append_assoc, List.cons_append, primary_of_power hatom hcaret,
      Parser.bind_of_ok hexponent]
    rfl
  | _, ts, after, _, .factor h hsign => by
    intro hafter
    have hprimary := reaches_of_reads h hafter
    -- A primary that starts with a sign has the sign as its operand.
    match ts, h.ne_nil with
    | first :: ts, _ =>
      by_cases hfirst : first.kind.isSign
      · exact (factor_operand hlast hfirst (hsign first ts rfl hfirst)).trans hprimary
      · exact (factor_of_not hlast (w := first :: _) hfirst).trans hprimary
  | _, _, _, _, .signed hsign h hunary => by
    intro hafter
    exact factor_unary hlast hsign hunary (reaches_of_reads h hafter)
  | _, _, _, _, .term h => by
    intro hafter
    rw [term_eq hlast, Parser.bind_of_ok (reaches_of_reads h hafter)]
  | _, _, _, _, .product h ho hus => by
    intro hafter
    -- The left operand comes to more factors, and the first of these is the right operand.
    have hleft := reaches_of_reads h (not_continues_of_joins (w := _ :: _) ho)
    rw [List.append_assoc, List.cons_append]
    rw [List.cons_append] at hleft
    rw [hleft, moreFactors_cons hlast ho, Parser.bind_of_ok (reaches_of_reads hus hafter)]
  | _, _, _, _, .expression h => by
    intro hafter hjoins
    have hterm := reaches_of_reads h hafter
    rw [moreFactors_of_not hlast hjoins] at hterm
    rw [expression_eq hlast, Parser.bind_of_ok hterm]
  | _, _, _, _, .sum h ho hus => by
    intro hafter hjoins
    -- The sign ends the left operand, which therefore comes to more terms.
    obtain ⟨hnext, hnot⟩ := not_continues_of_sign (w := _ :: _) ho
    have hleft := reaches_of_reads h hnext hnot
    have hright := reaches_of_reads hus hafter
    rw [moreFactors_of_not hlast hjoins] at hright
    rw [List.append_assoc, List.cons_append]
    rw [List.cons_append] at hleft
    rw [hleft, moreTerms_cons hlast ho, Parser.bind_of_ok hright]
  | _, _, _, _, .complete h => by
    obtain ⟨hnext, hjoins, hsign⟩ := not_continues_of_closes (w := []) (.inl rfl)
    exact (reaches_of_reads h).expression_eq_ok hlast hnext hjoins hsign

/-- The rules read the arguments of a call up to its end. -/
theorem arguments_of_reads : ∀ {ts after : List Token} {trees : List SyntaxTree},
    ReadsArguments (RuleSkips last) ts after trees → nextKind after = .rightParenthesis →
    Parser.arguments (rules : Parser.Rules (Words last)) ⟨ts ++ after⟩ = .ok trees ⟨after⟩
  | _, _, _, .none, hafter =>
    -- The attempt at a first argument fails at the end of the call, and there are none.
    arguments_of_error (expression_stuck hlast (.inr (.inr hafter)))
  | _, _, _, .some h hus, hafter => by
    obtain ⟨hnext, hjoins, hsign⟩ := not_continues_of_closes (hus.closes hafter)
    have hfirst := (reaches_of_reads h).expression_eq_ok hlast hnext hjoins hsign
    rw [List.append_assoc, arguments_of_ok hlast hfirst]
    exact Parser.bind_of_ok (moreArguments_of_reads hus hafter)

/-- The rules read the arguments after the first up to the end of the call. -/
theorem moreArguments_of_reads : ∀ {ts after : List Token} {trees : List SyntaxTree},
    ReadsMore (RuleSkips last) ts after trees → nextKind after = .rightParenthesis →
    (rules : Parser.Rules (Words last)).moreArguments ⟨ts ++ after⟩ = .ok trees ⟨after⟩
  | _, _, _, .nil, hafter => moreArguments_of_ne hlast (by simp [hafter])
  | _, _, _, .cons hcomma h hus, hafter => by
    obtain ⟨hnext, hjoins, hsign⟩ := not_continues_of_closes (hus.closes hafter)
    have hfirst := (reaches_of_reads h).expression_eq_ok hlast hnext hjoins hsign
    simp only [List.cons_append, List.append_assoc]
    rw [moreArguments_cons hlast hcomma, Parser.bind_of_ok hfirst]
    exact Parser.bind_of_ok (moreArguments_of_reads hus hafter)

end

end

end LineCalc.Words
