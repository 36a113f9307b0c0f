import LineCalc.CommandLine
import LineCalc.Proofs.Evaluation.Lifting
import LineCalc.Proofs.Lexing.Lexemes
import LineCalc.Proofs.Parsing.Extension

/-!
# Arithmetic on numbers

A numeric text has numbers, parentheses, signs before operands and operators between them, and
nothing else (`Numeric`). How its operators group is said by levels of binding, and so is what the
text computes (`Computes`): each step is the operation of one operator on two numbers, or of one
sign on a number. The evaluation of every numeric text gives what it computes (`evaluate_numeric`).

There are three parts to this. Operands and operators alternate in a numeric text, and from right to
left the levels can be told apart: a first signed power, then what goes on with it as a product,
then what goes on with that as a sum (`Splits`). So there is something that the text computes. The
parser follows the same levels, because every sign of the text has an operand behind it, and the
tree that it reads has the computed number as its value (`Computes.exists_reads`). And since it
reads only one tree, there is only one such number.
-/

namespace LineCalc

open LineCalc.Parser (Production)

/-! ## Numeric texts -/

/-- The tokens of operands that are numbers or made of numbers, in parentheses or behind signs, with
operators between them in whatever order. -/
inductive Numeric : List Token → Prop
  | number {token : Token} (h : token.kind = .number) : Numeric [token]
  | group {opening closing : Token} {ts : List Token} (ho : opening.kind = .leftParenthesis)
    (h : Numeric ts) (hc : closing.kind = .rightParenthesis) : Numeric (opening :: ts ++ [closing])
  | signed {sign : Token} {ts : List Token} (hsign : sign.kind.isSign) (h : Numeric ts) :
    Numeric (sign :: ts)
  | binary {operator : Token} {ts us : List Token} (h : Numeric ts)
    (ho : operator.kind.isOperator) (hus : Numeric us) : Numeric (ts ++ operator :: us)

mutual

/-- The tokens of a number or of a group. -/
inductive NumericOperand : List Token → Prop
  | number {token : Token} (h : token.kind = .number) : NumericOperand [token]
  | group {opening closing : Token} {ts : List Token} (ho : opening.kind = .leftParenthesis)
    (h : Alternates ts) (hc : closing.kind = .rightParenthesis) :
    NumericOperand (opening :: ts ++ [closing])

/-- The tokens of operands behind signs, with an operator between each operand and the next. -/
inductive Alternates : List Token → Prop
  | operand {ts : List Token} (h : NumericOperand ts) : Alternates ts
  | sign {sign : Token} {w : List Token} (hsign : sign.kind.isSign) (hw : Alternates w) :
    Alternates (sign :: w)
  | operator {operator : Token} {ts w : List Token} (h : NumericOperand ts)
    (ho : operator.kind.isOperator) (hw : Alternates w) : Alternates (ts ++ operator :: w)

end

/-- With an operator between them, two such rows of tokens are one. -/
theorem Alternates.append {operator : Token} {us : List Token} (ho : operator.kind.isOperator)
    (hus : Alternates us) : ∀ {ts : List Token}, Alternates ts → Alternates (ts ++ operator :: us)
  | _, .operand h => .operator h ho hus
  | _, .sign hsign hw => .sign hsign (Alternates.append ho hus hw)
  | _, .operator h ho' hw => by
    rw [List.append_assoc]
    exact .operator h ho' (Alternates.append ho hus hw)

/-- Operands and operators alternate in a numeric text. -/
theorem Numeric.alternates {ts : List Token} (h : Numeric ts) : Alternates ts := by
  induction h with
  | number h => exact .operand (.number h)
  | group ho _ hc ih => exact .operand (.group ho ih hc)
  | signed hsign _ ih => exact .sign hsign ih
  | binary _ ho _ ih ihus => exact .append ho ihus ih

/-! ## What a text computes -/

/-- How closely the operators of arithmetic bind, the closest first. -/
inductive Level where
  | operand
  | power
  | signed
  | product
  | sum

section Numerics

variable [Numerics]

/-- The number that tokens compute. A power has a signed power as its exponent, so powers group from
the right; a sign applies to a whole power; products and sums group from the left. -/
inductive Computes : Level → List Token → Binary64 → Prop
  | number {token : Token} (h : token.kind = .number) :
    Computes .operand [token] (Literal.toBinary64 token.lexeme.toList)
  | group {opening closing : Token} {ts : List Token} {x : Binary64}
    (ho : opening.kind = .leftParenthesis) (h : Computes .sum ts x)
    (hc : closing.kind = .rightParenthesis) : Computes .operand (opening :: ts ++ [closing]) x
  | powerOfOperand {ts : List Token} {x : Binary64} (h : Computes .operand ts x) :
    Computes .power ts x
  | power {operator : Token} {ts us : List Token} {x y : Binary64} (h : Computes .operand ts x)
    (ho : operator.kind = Operator.power.kind) (hus : Computes .signed us y) :
    Computes .power (ts ++ operator :: us) (Operator.power.binary x y)
  | signedOfPower {ts : List Token} {x : Binary64} (h : Computes .power ts x) :
    Computes .signed ts x
  | signed {sign : Token} {op : Operator} {apply : Binary64 → Binary64} {ts : List Token}
    {x : Binary64} (hsign : sign.kind = op.kind) (hop : op.unary? = some apply)
    (h : Computes .signed ts x) : Computes .signed (sign :: ts) (apply x)
  | productOfSigned {ts : List Token} {x : Binary64} (h : Computes .signed ts x) :
    Computes .product ts x
  | product {operator : Token} {op : Operator} {ts us : List Token} {x y : Binary64}
    (h : Computes .product ts x) (hkind : operator.kind.joinsFactors)
    (ho : operator.kind = op.kind) (hus : Computes .signed us y) :
    Computes .product (ts ++ operator :: us) (op.binary x y)
  | sumOfProduct {ts : List Token} {x : Binary64} (h : Computes .product ts x) :
    Computes .sum ts x
  | sum {operator : Token} {op : Operator} {ts us : List Token} {x y : Binary64}
    (h : Computes .sum ts x) (hkind : operator.kind.isSign) (ho : operator.kind = op.kind)
    (hus : Computes .product us y) : Computes .sum (ts ++ operator :: us) (op.binary x y)

/-! ## Every numeric text computes a number -/

/-- What computes a number on a level does so with more tokens behind it. -/
def GoesOn (level : Level) (more : List Token) : Prop :=
  ∀ ts x, Computes level ts x → ∃ y, Computes level (ts ++ more) y

/-- Without more tokens, the number is the same. -/
theorem GoesOn.nil (level : Level) : GoesOn level [] := by
  intro ts x h
  rw [List.append_nil]
  exact ⟨x, h⟩

/-- A product goes on with an operator and a factor. -/
theorem GoesOn.factor {operator : Token} {us more : List Token} {y : Binary64}
    (hkind : operator.kind.joinsFactors) (hus : Computes .signed us y)
    (hmore : GoesOn .product more) : GoesOn .product (operator :: (us ++ more)) := by
  intro ts x h
  obtain ⟨op, ho⟩ := TokenKind.exists_operator (isOperator_of_kind (.inl (.inr hkind)))
  have hproduct := hmore _ _ (.product h hkind ho hus)
  rwa [List.append_assoc] at hproduct

/-- A sum goes on with a sign and a term. -/
theorem GoesOn.term {operator : Token} {us more : List Token} {y : Binary64}
    (hkind : operator.kind.isSign) (hus : Computes .product us y) (hmore : GoesOn .sum more) :
    GoesOn .sum (operator :: (us ++ more)) := by
  intro ts x h
  obtain ⟨op, ho⟩ := TokenKind.exists_operator (isOperator_of_kind (.inl (.inl hkind)))
  have hsum := hmore _ _ (.sum h hkind ho hus)
  rwa [List.append_assoc] at hsum

/-- Tokens fall into a signed power, what goes on with it as a product, and what goes on with that
as a sum. -/
def Splits (w : List Token) : Prop :=
  ∃ first factors terms x, w = first ++ (factors ++ terms) ∧ Computes .signed first x ∧
    GoesOn .product factors ∧ GoesOn .sum terms

namespace Splits

variable {w : List Token}

/-- Tokens that fall apart in this way compute a number. -/
theorem exists_computes (h : Splits w) : ∃ x, Computes .sum w x := by
  obtain ⟨first, factors, terms, x, rfl, hfirst, hfactors, hterms⟩ := h
  obtain ⟨y, hy⟩ := hfactors first x (.productOfSigned hfirst)
  have hsum := hterms _ _ (.sumOfProduct hy)
  rwa [List.append_assoc] at hsum

/-- A power falls apart into itself. -/
theorem of_power {x : Binary64} (h : Computes .power w x) : Splits w :=
  ⟨w, [], [], x, by simp, .signedOfPower h, .nil _, .nil _⟩

/-- A sign belongs to the first power. -/
theorem sign {sign : Token} (hsign : sign.kind.isSign) (h : Splits w) : Splits (sign :: w) := by
  obtain ⟨first, factors, terms, x, rfl, hfirst, hfactors, hterms⟩ := h
  obtain ⟨op, hkind⟩ := TokenKind.exists_operator (isOperator_of_kind (.inl (.inl hsign)))
  obtain ⟨apply, hop⟩ : ∃ apply, op.unary? = some apply := by
    rw [hkind] at hsign
    cases op <;> first | exact ⟨_, rfl⟩ | simp [Operator.kind, TokenKind.isSign] at hsign
  exact ⟨sign :: first, factors, terms, apply x, rfl, .signed hkind hop hfirst, hfactors, hterms⟩

/-- An operand and an operator belong to the first power, or they come before it in a product, or
they come before the whole first product in a sum. -/
theorem operator {operator : Token} {ts : List Token} {x : Binary64}
    (hts : Computes .operand ts x) (ho : operator.kind.isOperator) (h : Splits w) :
    Splits (ts ++ operator :: w) := by
  obtain ⟨first, factors, terms, y, rfl, hfirst, hfactors, hterms⟩ := h
  have hsigned : Computes .signed ts x := .signedOfPower (.powerOfOperand hts)
  have hcases : (operator.kind.isSign ∨ operator.kind.joinsFactors) ∨ operator.kind = .caret := by
    simpa [TokenKind.isOperator] using ho
  rcases hcases with (hsign | hjoins) | hcaret
  · obtain ⟨z, hz⟩ := hfactors first y (.productOfSigned hfirst)
    have hgoes := GoesOn.term hsign hz hterms
    rw [List.append_assoc] at hgoes
    exact ⟨ts, [], _, x, rfl, hsigned, .nil _, hgoes⟩
  · have hgoes := GoesOn.factor hjoins hfirst hfactors
    exact ⟨ts, _, terms, x, by simp, hsigned, hgoes, hterms⟩
  · have hpower := Computes.power hts hcaret hfirst
    exact ⟨_, factors, terms, _, by simp, .signedOfPower hpower, hfactors, hterms⟩

end Splits

mutual

/-- A number or a group computes a number. -/
theorem NumericOperand.exists_computes : ∀ {ts : List Token}, NumericOperand ts →
    ∃ x, Computes .operand ts x
  | _, .number h => ⟨_, .number h⟩
  | _, .group ho h hc => by
    obtain ⟨x, hx⟩ := h.splits.exists_computes
    exact ⟨x, .group ho hx hc⟩

/-- Alternating operands and operators fall apart by levels. -/
theorem Alternates.splits : ∀ {w : List Token}, Alternates w → Splits w
  | _, .operand h => by
    obtain ⟨x, hx⟩ := h.exists_computes
    exact .of_power (.powerOfOperand hx)
  | _, .sign hsign hw => hw.splits.sign hsign
  | _, .operator h ho hw => by
    obtain ⟨x, hx⟩ := h.exists_computes
    exact hw.splits.operator hx ho

end

/-! ## The parser follows the levels -/

/-- The production that reads a level. -/
def Level.production : Level → Production
  | .operand => .atom
  | .power => .primary
  | .signed => .factor
  | .product => .term
  | .sum => .expression

/-- How the tokens of a level begin. -/
def Level.Begins : Level → List Token → Prop
  | .operand, w | .power, w => nextKind w = .number ∨ nextKind w = .leftParenthesis
  | _, w => (nextKind w).isSign ∨ nextKind w = .number ∨ nextKind w = .leftParenthesis

/-- What computes a number begins with a number, a parenthesis or, if it is no power, a sign. -/
theorem Computes.begins {level : Level} {ts : List Token} {x : Binary64}
    (h : Computes level ts x) (rest : List Token) : level.Begins (ts ++ rest) := by
  induction h generalizing rest with
  | number h => exact .inl h
  | group ho _ _ => exact .inr ho
  | powerOfOperand _ ih => exact ih rest
  | power _ _ _ ih _ =>
    rw [List.append_assoc]
    exact ih _
  | signedOfPower _ ih => exact .inr (ih rest)
  | @signed sign op _ _ _ hsign hop _ _ =>
    left
    show sign.kind.isSign
    rw [hsign]
    cases op <;> first | rfl | simp [Operator.unary?] at hop
  | productOfSigned _ ih => exact ih rest
  | product _ _ _ _ ih _ =>
    rw [List.append_assoc]
    exact ih _
  | sumOfProduct _ ih => exact ih rest
  | sum _ _ _ _ ih _ =>
    rw [List.append_assoc]
    exact ih _

/-- A power does not begin with a sign. -/
theorem Computes.not_isSign {sign : Token} {ts : List Token} {x : Binary64}
    (h : Computes .power (sign :: ts) x) : ¬sign.kind.isSign := by
  have hbegins : sign.kind = .number ∨ sign.kind = .leftParenthesis := h.begins []
  rcases hbegins with h | h <;> simp [h, TokenKind.isSign]

/-- A sign before something signed is no operand, if a factor is read there. -/
theorem Computes.not_operand {ts after : List Token} {x : Binary64} {t : SyntaxTree}
    (h : Computes .signed ts x) (ht : Reads .factor ts after t) (hafter : ¬Continues after) :
    ¬Operand Skips (ts ++ after) := by
  rintro (⟨hoperator, -⟩ | hno)
  · have hbegins : (nextKind (ts ++ after)).isSign ∨ nextKind (ts ++ after) = .number ∨
        nextKind (ts ++ after) = .leftParenthesis := h.begins after
    generalize nextKind (ts ++ after) = kind at hoperator hbegins
    cases kind <;> simp_all [TokenKind.joinsFactors, TokenKind.isSign]
  · exact hno ⟨after, (settled_skips _ _).mpr ⟨ts, t, rfl, hafter, ht⟩⟩

/-! ## The value of the tree -/

/-- A tree is evaluated to a number over every table that binds the operators to themselves. -/
def EvaluatesToNumber (t : SyntaxTree) (x : Binary64) : Prop :=
  ∀ {β σ : Type} (host : Host β σ) (table : Table β), table.BindsOperators →
    Expr.evaluate host table (t.map Atom.ofToken) = pure (.number x)

/-- The tokens of operators have their symbols as lexemes. -/
def SymbolsOf (ts : List Token) : Prop :=
  ∀ token ∈ ts, ∀ op : Operator, token.kind = op.kind → token.lexeme = op.symbol

omit [Numerics] in
/-- The operands of an operator have such tokens if all have, and the operator is one of them. -/
theorem SymbolsOf.split {operator : Token} {ts us : List Token}
    (h : SymbolsOf (ts ++ operator :: us)) : SymbolsOf ts ∧
      (∀ op : Operator, operator.kind = op.kind → operator.lexeme = op.symbol) ∧ SymbolsOf us := by
  refine ⟨fun token htoken => h token ?_, h operator ?_, fun token htoken => h token ?_⟩
  · exact List.mem_append_left _ htoken
  · exact List.mem_append_right _ List.mem_cons_self
  · exact List.mem_append_right _ (List.mem_cons_of_mem _ htoken)

omit [Numerics] in
/-- An operator is the name of its symbol in a tree. -/
theorem map_operator {token : Token} {op : Operator} (hkind : token.kind = op.kind)
    (hlexeme : token.lexeme = op.symbol) (operands : List SyntaxTree) :
    (Tree.call (.leaf token) operands).map Atom.ofToken =
      .call (.leaf (.identifier op.symbol)) (operands.map (Tree.map Atom.ofToken)) := by
  have hnumber : token.kind ≠ .number := by
    rw [hkind]
    cases op <;> simp [Operator.kind]
  rw [map_ofToken_operator hnumber, hlexeme]

/-- A number is evaluated to itself. -/
theorem EvaluatesToNumber.number {token : Token} (h : token.kind = .number) :
    EvaluatesToNumber (.leaf token) (Literal.toBinary64 token.lexeme.toList) := by
  intro β σ host table _
  have hatom : Atom.ofToken token = .number (Literal.toBinary64 token.lexeme.toList) := if_pos h
  rw [Tree.map, hatom]
  exact evaluate_leaf rfl

section

variable {token : Token} {op : Operator} (hkind : token.kind = op.kind)
  (hlexeme : token.lexeme = op.symbol)
include hkind hlexeme

/-- An operator between trees applies its operation to their numbers, the left one first. -/
theorem EvaluatesToNumber.binary {left right : SyntaxTree} {x y : Binary64}
    (hleft : EvaluatesToNumber left x) (hright : EvaluatesToNumber right y) :
    EvaluatesToNumber (.call (.leaf token) [left, right]) (op.binary x y) := by
  intro β σ host table hoperators
  have heval : op.eval? [Value.number x, .number y] =
      some (.number (op.binary x y) : Value β) := rfl
  rw [map_operator hkind hlexeme]
  show Expr.evaluate host table (.call _ [left.map Atom.ofToken, right.map Atom.ofToken]) = _
  rw [evaluate_binary hoperators, hleft host table hoperators, pure_bind,
    hright host table hoperators, pure_bind, Value.apply_operator host heval]

/-- A sign before a tree applies its operation to the number of it. -/
theorem EvaluatesToNumber.unary {operand : SyntaxTree} {x : Binary64} {apply : Binary64 → Binary64}
    (hop : op.unary? = some apply) (hoperand : EvaluatesToNumber operand x) :
    EvaluatesToNumber (.call (.leaf token) [operand]) (apply x) := by
  intro β σ host table hoperators
  have heval : op.eval? [Value.number x] = some (.number (apply x) : Value β) := by
    simp [Operator.eval?, hop]
  rw [map_operator hkind hlexeme]
  show Expr.evaluate host table (.call _ [operand.map Atom.ofToken]) = _
  rw [evaluate_unary hoperators, hoperand host table hoperators, pure_bind,
    Value.apply_operator host heval]

end

/-- What computes a number is read as a tree with this value, before tokens that do not go on with
a signed power. -/
theorem Computes.exists_reads {level : Level} {ts : List Token} {x : Binary64}
    (h : Computes level ts x) (hsymbols : SymbolsOf ts) (after : List Token)
    (hafter : level = .operand ∨ ¬Continues after) :
    ∃ t, Reads level.production ts after t ∧ EvaluatesToNumber t x := by
  induction h generalizing after with
  | @number token h => exact ⟨.leaf token, .leaf (.inl h), EvaluatesToNumber.number h⟩
  | @group opening closing ts x ho _ hc ih =>
    have hinner : SymbolsOf ts := fun token htoken => hsymbols token (by simp [htoken])
    -- The closing parenthesis is behind the inner sum and ends it.
    have hclosing := (Words.not_continues_of_closes (w := closing :: after) (.inr (.inr hc))).1
    obtain ⟨t, ht, hx⟩ := ih hinner (closing :: after) (.inr hclosing)
    exact ⟨t, .group ho ht hc, hx⟩
  | powerOfOperand _ ih =>
    obtain ⟨t, ht, hx⟩ := ih hsymbols after (.inl rfl)
    exact ⟨t, .primary ht, hx⟩
  | @power operator ts us x y _ ho _ ih ihus =>
    obtain ⟨hts, hoperator, hus⟩ := hsymbols.split
    -- The base is an operand, which may have the caret behind it.
    have hafter : ¬Continues after := hafter.resolve_left (by simp)
    obtain ⟨t, ht, hx⟩ := ih hts (operator :: us ++ after) (.inl rfl)
    obtain ⟨u, hu, hy⟩ := ihus hus after (.inr hafter)
    exact ⟨_, .power ht ho hu, hx.binary ho (hoperator _ ho) hy⟩
  | @signedOfPower ts x h ih =>
    obtain ⟨t, ht, hx⟩ := ih hsymbols after (.inr (hafter.resolve_left (by simp)))
    -- A power does not begin with a sign, so there is none to ask about.
    refine ⟨t, .factor ht fun sign us hts hsign => ?_, hx⟩
    subst hts
    exact absurd hsign h.not_isSign
  | @signed sign op apply ts x hsign hop h ih =>
    obtain ⟨-, hlexeme, hts⟩ := @SymbolsOf.split sign [] ts hsymbols
    have hafter : ¬Continues after := hafter.resolve_left (by simp)
    -- The sign has an operand behind it, and is no operand before that.
    have hkind : sign.kind.isSign := by
      rw [hsign]
      cases op <;> first | rfl | simp [Operator.unary?] at hop
    obtain ⟨t, ht, hx⟩ := ih hts after (.inr hafter)
    exact ⟨_, .signed hkind ht (h.not_operand ht hafter),
      hx.unary hsign (hlexeme _ hsign) hop⟩
  | productOfSigned _ ih =>
    obtain ⟨t, ht, hx⟩ := ih hsymbols after (.inr (hafter.resolve_left (by simp)))
    exact ⟨t, .term ht, hx⟩
  | @product operator op ts us x y _ hkind ho _ ih ihus =>
    obtain ⟨hts, hoperator, hus⟩ := hsymbols.split
    -- The first product ends at the operator, and the second operand where the whole does.
    have hjoins : ¬Continues (operator :: us ++ after) :=
      Words.not_continues_of_joins (w := _ :: _) hkind
    obtain ⟨t, ht, hx⟩ := ih hts (operator :: us ++ after) (.inr hjoins)
    obtain ⟨u, hu, hy⟩ := ihus hus after (.inr (hafter.resolve_left (by simp)))
    exact ⟨_, .product ht hkind hu, hx.binary ho (hoperator _ ho) hy⟩
  | sumOfProduct _ ih =>
    obtain ⟨t, ht, hx⟩ := ih hsymbols after (.inr (hafter.resolve_left (by simp)))
    exact ⟨t, .expression ht, hx⟩
  | @sum operator op ts us x y _ hkind ho _ ih ihus =>
    obtain ⟨hts, hoperator, hus⟩ := hsymbols.split
    -- So does the first sum at the sign.
    have hsign : ¬Continues (operator :: us ++ after) :=
      (Words.not_continues_of_sign (w := _ :: _) hkind).1
    obtain ⟨t, ht, hx⟩ := ih hts (operator :: us ++ after) (.inr hsign)
    obtain ⟨u, hu, hy⟩ := ihus hus after (.inr (hafter.resolve_left (by simp)))
    exact ⟨_, .sum ht hkind hu, hx.binary ho (hoperator _ ho) hy⟩

/-! ## Evaluation -/

omit [Numerics] in
/-- The operators are bound to themselves in the table that an expression starts with. -/
theorem Builtin.operatorTable_bindsOperators {β : Type} :
    (operatorTable : Table β).BindsOperators := by
  intro op
  cases op <;> rfl

/-- A numeric text computes exactly one number by the usual levels of binding, and the expression
that it spells is made and evaluated to this number without a failure. -/
theorem evaluate_numeric {source : String} {ts : List Token}
    (hlex : lex source = ts ++ [Cursor.endToken source.toList]) (h : Numeric ts) :
    ∃ x, (∀ y, Computes .sum ts y ↔ y = x) ∧
      ∀ β σ : Type, ∃ expression : Expression β, Expression.ofString source = .ok expression ∧
        ∀ (host : Host β σ) (world : σ),
          expression.evaluate host world = .ok (.number x) world := by
  obtain ⟨x, hx⟩ := h.alternates.splits.exists_computes
  have hsymbols : SymbolsOf ts := by
    intro token htoken op hkind
    have hmem : token ∈ lex source := by
      rw [hlex]
      exact List.mem_append_left _ htoken
    exact lexeme_eq_symbol hmem hkind
  have hend : Closes [] := .inl rfl
  have hstop := Words.not_continues_of_closes hend
  obtain ⟨t, ht, hvalue⟩ := hx.exists_reads hsymbols [] (.inr hstop.1)
  have hparse : parse source = .ok (t.map Atom.ofToken) :=
    (parse_eq_ok_iff hlex (kind_ne_of_lex_eq hlex) _).mpr ⟨t, ht, rfl⟩
  refine ⟨x, fun y => ⟨fun hy => ?_, fun hy => hy ▸ hx⟩, fun β σ => ?_⟩
  · -- Both numbers are the value of the only tree that is read.
    obtain ⟨u, hu, hother⟩ := hy.exists_reads hsymbols [] (.inr hstop.1)
    obtain rfl : t = u := Reads.unique ht hu hstop
    have hboth := (hother CommandLine.noHost _ Builtin.operatorTable_bindsOperators).symm.trans
      (hvalue CommandLine.noHost _ Builtin.operatorTable_bindsOperators)
    have hresult := congrFun hboth ()
    cases hresult
    rfl
  · refine ⟨⟨source, t.map Atom.ofToken, Builtin.operatorTable⟩, ?_, fun host world => ?_⟩
    · rw [Expression.ofString, hparse]
      rfl
    · have hpure := hvalue host _ Builtin.operatorTable_bindsOperators
      exact congrFun hpure world

end Numerics

open Native

set_option maxRecDepth 4000 in
/-- The sign before a power applies to the power and not to its base, the sign before the exponent
to the exponent, and the product comes last. -/
theorem evaluate_negated_power_times_three :
    let two := Literal.toBinary64 "2".toList
    let three := Literal.toBinary64 "3".toList
    let power := Operator.power.binary two (Numerics.negate two)
    ∃ expression : Expression Empty, Expression.ofString "-2^-2*3" = .ok expression ∧
      expression.evaluate CommandLine.noHost () =
        .ok (.number (Operator.multiply.binary (Numerics.negate power) three)) () := by
  intro two three power
  let base : Token := ⟨.number, "2", 1⟩
  let caret : Token := ⟨.caret, "^", 2⟩
  let exponent : List Token := [⟨.minus, "-", 3⟩, ⟨.number, "2", 4⟩]
  let first : List Token := ⟨.minus, "-", 0⟩ :: ([base] ++ caret :: exponent)
  let star : Token := ⟨.star, "*", 5⟩
  let second : List Token := [⟨.number, "3", 6⟩]
  have hlex : lex "-2^-2*3" =
      (first ++ star :: second) ++ [Cursor.endToken "-2^-2*3".toList] := by rfl
  have hnumeric : Numeric (first ++ star :: second) :=
    .binary (.signed rfl (.binary (.number rfl) rfl (.signed rfl (.number rfl)))) rfl (.number rfl)
  obtain ⟨x, hx, hevaluates⟩ := evaluate_numeric hlex hnumeric
  have hbase : Computes .operand [base] two := .number rfl
  have hnegated : Computes .signed exponent (Numerics.negate two) :=
    .signed rfl (rfl : Operator.subtract.unary? = _)
      (.signedOfPower (.powerOfOperand (.number rfl)))
  have hfirst : Computes .signed first (Numerics.negate power) :=
    .signed rfl (rfl : Operator.subtract.unary? = _) (.signedOfPower (.power hbase rfl hnegated))
  have hsecond : Computes .signed second three := .signedOfPower (.powerOfOperand (.number rfl))
  have hproduct : Computes .sum (first ++ star :: second)
      (Operator.multiply.binary (Numerics.negate power) three) :=
    .sumOfProduct (.product (.productOfSigned hfirst) rfl rfl hsecond)
  obtain rfl := (hx _).mp hproduct
  obtain ⟨expression, hexpression, hvalue⟩ := hevaluates Empty Unit
  exact ⟨expression, hexpression, hvalue _ _⟩

end LineCalc
