import LineCalc.Proofs.Parsing.Grammar
import LineCalc.Proofs.Parsing.Words

/-!
# The rules by the next token

The rules without levels on a list of tokens, one lemma for each way in which a rule can start.
Where the next token does not fit, a rule that repeats something stops without a step. Where it
fits, the token is gone on the right side of the equation, and what is left is the rest of the
rule on the rest of the list.
-/

namespace LineCalc.Words

variable {last : Token} (hlast : last.kind = .endOfFile)
include hlast

/-- The next token of a list has the kind that the list says. -/
theorem kind_headD (list : List Token) : (list.headD last).kind = nextKind list := by
  cases list with
  | nil => exact hlast
  | cons token list => rfl

/-- Without a comma there are no more arguments. -/
theorem moreArguments_of_ne {w : List Token} (h : nextKind w ≠ .comma) :
    (rules : Parser.Rules (Words last)).moreArguments ⟨w⟩ = .ok [] ⟨w⟩ := by
  rw [← kind_headD hlast] at h
  rw [← nextRules_rules hlast]
  show (if (w.headD last).kind = .comma then _ else pure [] : Parser (Words last) _) ⟨w⟩ = _
  rw [if_neg h]
  rfl

/-- Behind a comma there is an argument, and then there are more arguments. -/
theorem moreArguments_cons {comma : Token} (h : comma.kind = .comma) (w : List Token) :
    (rules : Parser.Rules (Words last)).moreArguments ⟨comma :: w⟩ =
      (rules.expression >>= fun argument => rules.moreArguments >>= fun arguments =>
        pure (argument :: arguments)) ⟨w⟩ := by
  conv => lhs; rw [← nextRules_rules hlast]
  show (if comma.kind = .comma then discard Parser.advance >>= _ else pure [] :
    Parser (Words last) _) ⟨comma :: w⟩ = _
  rw [if_pos h, Parser.discard_bind]
  rfl

omit hlast in
/-- Without a first argument there are none, and the tokens stay as they are. -/
theorem arguments_of_error {w : List Token} {e : ParseError} {s : Words last}
    (h : (rules : Parser.Rules (Words last)).expression ⟨w⟩ = .error e s) :
    Parser.arguments (rules : Parser.Rules (Words last)) ⟨w⟩ = .ok [] ⟨w⟩ := by
  unfold Parser.arguments
  rw [Parser.bind_of_ok (Parser.attempt?_of_error h)]
  rfl

/-- Behind a first argument there are more arguments. -/
theorem arguments_of_ok {w v : List Token} {t : SyntaxTree}
    (h : (rules : Parser.Rules (Words last)).expression ⟨w⟩ = .ok t ⟨v⟩) :
    Parser.arguments (rules : Parser.Rules (Words last)) ⟨w⟩ =
      (rules.moreArguments >>= fun more => pure (t :: more)) ⟨v⟩ := by
  have hmore : Parser.moreArguments (rules : Parser.Rules (Words last)) = rules.moreArguments :=
    congrArg Parser.Rules.moreArguments (nextRules_rules hlast)
  unfold Parser.arguments
  rw [Parser.bind_of_ok (Parser.attempt?_of_ok h), hmore]

/-- Without a parenthesis the callee is not called. -/
theorem calls_of_ne {w : List Token} (h : nextKind w ≠ .leftParenthesis) (callee : SyntaxTree) :
    (rules : Parser.Rules (Words last)).calls callee ⟨w⟩ = .ok callee ⟨w⟩ := by
  rw [← kind_headD hlast] at h
  rw [← nextRules_rules hlast]
  show (if (w.headD last).kind = .leftParenthesis then _ else pure callee :
    Parser (Words last) _) ⟨w⟩ = _
  rw [if_neg h]
  rfl

/-- Behind a parenthesis there are the arguments of a call and the other parenthesis, and the call is
the callee of more calls. -/
theorem calls_cons {opening : Token} (h : opening.kind = .leftParenthesis) (callee : SyntaxTree)
    (w : List Token) :
    (rules : Parser.Rules (Words last)).calls callee ⟨opening :: w⟩ =
      (Parser.arguments rules >>= fun arguments => Parser.expect .rightParenthesis >>= fun _ =>
        rules.calls (.call callee arguments)) ⟨w⟩ := by
  conv => lhs; rw [← nextRules_rules hlast]
  show (if opening.kind = .leftParenthesis then
      discard Parser.advance >>= fun _ => Parser.arguments rules >>= fun arguments =>
        discard (Parser.expect .rightParenthesis) >>= fun _ => rules.calls (.call callee arguments)
    else pure callee : Parser (Words last) _) ⟨opening :: w⟩ = _
  simp only [if_pos h, Parser.discard_bind]
  rfl

/-- Without an operator that joins factors a term ends. -/
theorem moreFactors_of_not {w : List Token} (h : ¬(nextKind w).joinsFactors) (left : SyntaxTree) :
    (rules : Parser.Rules (Words last)).moreFactors left ⟨w⟩ = .ok left ⟨w⟩ := by
  rw [← kind_headD hlast] at h
  rw [← nextRules_rules hlast]
  show (if (w.headD last).kind.joinsFactors then _ else pure left :
    Parser (Words last) _) ⟨w⟩ = _
  rw [if_neg h]
  rfl

/-- Behind an operator that joins factors there is a factor, and both are the first factor of the
rest. -/
theorem moreFactors_cons {operator : Token} (h : operator.kind.joinsFactors) (left : SyntaxTree)
    (w : List Token) :
    (rules : Parser.Rules (Words last)).moreFactors left ⟨operator :: w⟩ =
      (rules.factor >>= fun right =>
        rules.moreFactors (.call (.leaf operator) [left, right])) ⟨w⟩ := by
  conv => lhs; rw [← nextRules_rules hlast]
  show (if operator.kind.joinsFactors then discard Parser.advance >>= _ else pure left :
    Parser (Words last) _) ⟨operator :: w⟩ = _
  rw [if_pos h, Parser.discard_bind]
  rfl

/-- Without a sign an expression ends. -/
theorem moreTerms_of_not {w : List Token} (h : ¬(nextKind w).isSign) (left : SyntaxTree) :
    (rules : Parser.Rules (Words last)).moreTerms left ⟨w⟩ = .ok left ⟨w⟩ := by
  rw [← kind_headD hlast] at h
  rw [← nextRules_rules hlast]
  show (if (w.headD last).kind.isSign then _ else pure left :
    Parser (Words last) _) ⟨w⟩ = _
  rw [if_neg h]
  rfl

/-- Behind a sign there is a term, and both are the first term of the rest. -/
theorem moreTerms_cons {operator : Token} (h : operator.kind.isSign) (left : SyntaxTree)
    (w : List Token) :
    (rules : Parser.Rules (Words last)).moreTerms left ⟨operator :: w⟩ =
      (rules.term >>= fun right =>
        rules.moreTerms (.call (.leaf operator) [left, right])) ⟨w⟩ := by
  conv => lhs; rw [← nextRules_rules hlast]
  show (if operator.kind.isSign then discard Parser.advance >>= _ else pure left :
    Parser (Words last) _) ⟨operator :: w⟩ = _
  rw [if_pos h, Parser.discard_bind]
  rfl

/-- Without a sign a factor is a primary. -/
theorem factor_of_not {w : List Token} (h : ¬(nextKind w).isSign) :
    (rules : Parser.Rules (Words last)).factor ⟨w⟩ = Parser.primary rules ⟨w⟩ := by
  rw [← kind_headD hlast] at h
  conv => lhs; rw [← nextRules_rules hlast]
  show (if (w.headD last).kind.isSign then _ else Parser.primary rules :
    Parser (Words last) _) ⟨w⟩ = _
  rw [if_neg h]

/-- A sign is looked past twice: by the test for an operand and by the attempt at a prefix. -/
theorem factor_cons {sign : Token} (h : sign.kind.isSign) (w : List Token) :
    (rules : Parser.Rules (Words last)).factor ⟨sign :: w⟩ =
      (Parser.signIsOperand rules >>= fun operand =>
        if operand then Parser.primary rules
        else Parser.attempt? (discard Parser.advance >>= fun _ => rules.factor) >>= fun operand =>
          match operand with
          | some operand => pure (.call (.leaf sign) [operand])
          | none => Parser.primary rules) ⟨sign :: w⟩ := by
  conv => lhs; rw [← nextRules_rules hlast]
  show (if sign.kind.isSign then _ else Parser.primary rules :
    Parser (Words last) _) ⟨sign :: w⟩ = _
  rw [if_pos h]
  rfl

/-- A term is a factor and more factors. The rules of one level down are the same ones. -/
theorem term_eq : (rules : Parser.Rules (Words last)).term =
    rules.factor >>= fun left => rules.moreFactors left := by
  have hnext := nextRules_rules hlast
  have hfactor : Parser.factor rules = rules.factor := congrArg Parser.Rules.factor hnext
  have hmore : Parser.moreFactors rules = rules.moreFactors :=
    congrArg Parser.Rules.moreFactors hnext
  rw [← hfactor, ← hmore]
  exact (congrArg Parser.Rules.term hnext).symm

/-- An expression is a term and more terms. The rules of one level down are the same ones. -/
theorem expression_eq : (rules : Parser.Rules (Words last)).expression =
    rules.term >>= fun left => rules.moreTerms left := by
  have hnext := nextRules_rules hlast
  have hterm : Parser.term rules = rules.term := congrArg Parser.Rules.term hnext
  have hmore : Parser.moreTerms rules = rules.moreTerms := congrArg Parser.Rules.moreTerms hnext
  rw [← hterm, ← hmore]
  exact (congrArg Parser.Rules.expression hnext).symm

/-- A number, a name or an operator is an atom by itself, and the callee of the calls behind it. -/
theorem atom_leaf {token : Token}
    (h : token.kind = .number ∨ token.kind = .identifier ∨ token.kind.isOperator)
    (w : List Token) :
    Parser.atom (rules : Parser.Rules (Words last)) ⟨token :: w⟩ =
      rules.calls (.leaf token) ⟨w⟩ := by
  conv => rhs; rw [← nextRules_rules hlast]
  show (if token.kind = .number ∨ token.kind = .identifier ∨ token.kind.isOperator then
    Parser.calls rules (.leaf token) else _ : Parser (Words last) _) ⟨w⟩ = _
  rw [if_pos h]
  rfl

/-- Behind a parenthesis there is an expression and the other parenthesis, and it is the callee of
the calls behind that. -/
theorem atom_group {opening : Token} (h : opening.kind = .leftParenthesis) (w : List Token) :
    Parser.atom (rules : Parser.Rules (Words last)) ⟨opening :: w⟩ =
      (rules.expression >>= fun tree => Parser.expect .rightParenthesis >>= fun _ =>
        rules.calls tree) ⟨w⟩ := by
  have hcalls : Parser.calls rules = rules.calls :=
    congrArg Parser.Rules.calls (nextRules_rules hlast)
  -- A parenthesis is none of the tokens that are atoms by themselves.
  have hleaf :
      ¬(opening.kind = .number ∨ opening.kind = .identifier ∨ opening.kind.isOperator) := by
    simp [h, TokenKind.isOperator, TokenKind.isSign, TokenKind.joinsFactors]
  show (if opening.kind = .number ∨ opening.kind = .identifier ∨ opening.kind.isOperator then _
    else if opening.kind = .leftParenthesis then rules.expression >>= fun tree =>
      discard (Parser.expect .rightParenthesis) >>= fun _ => Parser.calls rules tree
    else throw _ : Parser (Words last) _) ⟨w⟩ = _
  simp only [if_neg hleaf, if_pos h, Parser.discard_bind, hcalls]

/-- No other token starts an atom. It is consumed by the attempt, and it is what is found. -/
theorem atom_stuck {w : List Token} (h : nextKind w ≠ .number) (h' : nextKind w ≠ .identifier)
    (ho : ¬(nextKind w).isOperator) (hp : nextKind w ≠ .leftParenthesis) :
    Parser.atom (rules : Parser.Rules (Words last)) ⟨w⟩ =
      .error ⟨Parser.atomKinds, w.headD last⟩ ⟨w.tail⟩ := by
  rw [← kind_headD hlast] at h h' ho hp
  show (if (w.headD last).kind = .number ∨ (w.headD last).kind = .identifier ∨
      (w.headD last).kind.isOperator then _
    else if (w.headD last).kind = .leftParenthesis then _
    else throw _ : Parser (Words last) SyntaxTree) ⟨w.tail⟩ = _
  rw [if_neg fun hc => hc.elim h fun hc => hc.elim h' ho, if_neg hp]
  rfl

omit hlast in
/-- A primary is an atom, and a power if a caret comes next. -/
theorem primary_eq : Parser.primary (rules : Parser.Rules (Words last)) =
    Parser.atom rules >>= fun base => Parser.peek >>= fun operator =>
      if operator.kind = .caret then
        Parser.advance >>= fun _ => rules.factor >>= fun exponent =>
          pure (.call (.leaf operator) [base, exponent])
      else pure base := by
  show (Parser.atom rules >>= fun base => Parser.peek >>= fun operator =>
    if operator.kind = .caret then discard Parser.advance >>= fun _ => rules.factor >>= _
    else pure base) = _
  simp only [Parser.discard_bind]

/-- Where no caret comes next, a primary is its atom. -/
theorem primary_of_atom {w v : List Token} {base : SyntaxTree}
    (h : Parser.atom (rules : Parser.Rules (Words last)) ⟨w⟩ = .ok base ⟨v⟩)
    (hv : nextKind v ≠ .caret) : Parser.primary rules (⟨w⟩ : Words last) = .ok base ⟨v⟩ := by
  rw [← kind_headD hlast] at hv
  rw [primary_eq, Parser.bind_of_ok h]
  show (if (v.headD last).kind = .caret then _ else pure base : Parser (Words last) _) ⟨v⟩ = _
  rw [if_neg hv]
  rfl

omit hlast in
/-- Where a caret comes next, a primary is a power, whose exponent is a factor. -/
theorem primary_of_power {w v : List Token} {base : SyntaxTree} {caret : Token}
    (h : Parser.atom (rules : Parser.Rules (Words last)) ⟨w⟩ = .ok base ⟨caret :: v⟩)
    (hcaret : caret.kind = .caret) :
    Parser.primary rules (⟨w⟩ : Words last) =
      (rules.factor >>= fun exponent => pure (.call (.leaf caret) [base, exponent])) ⟨v⟩ := by
  rw [primary_eq, Parser.bind_of_ok h]
  show (if caret.kind = .caret then _ else pure base : Parser (Words last) _) ⟨caret :: v⟩ = _
  rw [if_pos hcaret]
  rfl

end LineCalc.Words
