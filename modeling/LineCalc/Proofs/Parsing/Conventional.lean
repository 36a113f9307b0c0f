import LineCalc.Proofs.Parsing.Acceptance

/-!
# Conventional expressions

In a conventional expression no operator stands for itself as an operand: atoms are numbers, names
and groups. Without such operands the grammar is unambiguous and the choices of the parser are
forced, so a conventional expression has one derivation and is parsed to the tree of that
(`parse_conventional`).

A derivation is a piece of data here, a `Phrase`, with its tokens and its tree, so that there can be
more than one for the same tokens. What is repeated, calls, factors and terms, is a list in it, and
the tree groups them from the left.

Both halves go by induction on a phrase before tokens that its part does not go on with (`Ends`).
The next token decides which phrase it is, and so where its first piece ends (`Phrase.unique`). The
same token leads the parser into the rule for that piece (`Phrase.readsAs`): behind a sign there is
no operator but a sign, and always a factor, so the sign is a prefix.
-/

namespace LineCalc.Conventional

/-! ## Phrases -/

/-- The parts of the grammar: its productions, and what they repeat. -/
inductive Part where
  | atom
  | calls
  | arguments
  | moreArguments
  | primary
  | factor
  | term
  | moreFactors
  | expression
  | moreTerms

/-- The derivations of a part. -/
inductive Phrase : Part → Type
  | leaf (token : Token) (h : token.kind = .number ∨ token.kind = .identifier)
    (calls : Phrase .calls) : Phrase .atom
  | group (opening closing : Token) (ho : opening.kind = .leftParenthesis)
    (hc : closing.kind = .rightParenthesis) (inner : Phrase .expression)
    (calls : Phrase .calls) : Phrase .atom
  | noCall : Phrase .calls
  | call (opening closing : Token) (ho : opening.kind = .leftParenthesis)
    (hc : closing.kind = .rightParenthesis) (arguments : Phrase .arguments)
    (calls : Phrase .calls) : Phrase .calls
  | noArguments : Phrase .arguments
  | someArguments (first : Phrase .expression) (more : Phrase .moreArguments) : Phrase .arguments
  | noMoreArguments : Phrase .moreArguments
  | moreArguments (comma : Token) (h : comma.kind = .comma) (next : Phrase .expression)
    (more : Phrase .moreArguments) : Phrase .moreArguments
  | primary (base : Phrase .atom) : Phrase .primary
  | power (base : Phrase .atom) (caret : Token) (h : caret.kind = .caret)
    (exponent : Phrase .factor) : Phrase .primary
  | factor (operand : Phrase .primary) : Phrase .factor
  | signed (sign : Token) (h : sign.kind.isSign) (operand : Phrase .factor) : Phrase .factor
  | term (first : Phrase .factor) (more : Phrase .moreFactors) : Phrase .term
  | noMoreFactors : Phrase .moreFactors
  | moreFactors (operator : Token) (h : operator.kind.joinsFactors) (next : Phrase .factor)
    (more : Phrase .moreFactors) : Phrase .moreFactors
  | expression (first : Phrase .term) (more : Phrase .moreTerms) : Phrase .expression
  | noMoreTerms : Phrase .moreTerms
  | moreTerms (operator : Token) (h : operator.kind.isSign) (next : Phrase .term)
    (more : Phrase .moreTerms) : Phrase .moreTerms

/-- The tokens of a phrase. -/
def Phrase.tokens : {p : Part} → Phrase p → List Token
  | _, .leaf token _ calls => token :: calls.tokens
  | _, .group opening closing _ _ inner calls =>
    opening :: (inner.tokens ++ closing :: calls.tokens)
  | _, .noCall => []
  | _, .call opening closing _ _ arguments calls =>
    opening :: (arguments.tokens ++ closing :: calls.tokens)
  | _, .noArguments => []
  | _, .someArguments first more => first.tokens ++ more.tokens
  | _, .noMoreArguments => []
  | _, .moreArguments comma _ next more => comma :: (next.tokens ++ more.tokens)
  | _, .primary base => base.tokens
  | _, .power base caret _ exponent => base.tokens ++ caret :: exponent.tokens
  | _, .factor operand => operand.tokens
  | _, .signed sign _ operand => sign :: operand.tokens
  | _, .term first more => first.tokens ++ more.tokens
  | _, .noMoreFactors => []
  | _, .moreFactors operator _ next more => operator :: (next.tokens ++ more.tokens)
  | _, .expression first more => first.tokens ++ more.tokens
  | _, .noMoreTerms => []
  | _, .moreTerms operator _ next more => operator :: (next.tokens ++ more.tokens)

/-- What a part stands for: a tree, some trees, or what becomes of the tree before it. -/
@[reducible]
def Part.Meaning : Part → Type
  | .atom | .primary | .factor | .term | .expression => SyntaxTree
  | .arguments | .moreArguments => List SyntaxTree
  | .calls | .moreFactors | .moreTerms => SyntaxTree → SyntaxTree

/-- The tree of a phrase. Operators group from the left except for powers, each call wraps what
stands before it, and a sign is called with one argument. -/
def Phrase.tree : {p : Part} → Phrase p → p.Meaning
  | _, .leaf token _ calls => calls.tree (.leaf token)
  | _, .group _ _ _ _ inner calls => calls.tree inner.tree
  | _, .noCall => id
  | _, .call _ _ _ _ arguments calls => fun callee => calls.tree (.call callee arguments.tree)
  | _, .noArguments => []
  | _, .someArguments first more => first.tree :: more.tree
  | _, .noMoreArguments => []
  | _, .moreArguments _ _ next more => next.tree :: more.tree
  | _, .primary base => base.tree
  | _, .power base caret _ exponent => .call (.leaf caret) [base.tree, exponent.tree]
  | _, .factor operand => operand.tree
  | _, .signed sign _ operand => .call (.leaf sign) [operand.tree]
  | _, .term first more => more.tree first.tree
  | _, .noMoreFactors => id
  | _, .moreFactors operator _ next more => fun left =>
    more.tree (.call (.leaf operator) [left, next.tree])
  | _, .expression first more => more.tree first.tree
  | _, .noMoreTerms => id
  | _, .moreTerms operator _ next more => fun left =>
    more.tree (.call (.leaf operator) [left, next.tree])

/-! ## Where phrases begin and end -/

/-- A part does not go on with the tokens behind it. -/
def Part.Ends : Part → List Token → Prop
  | .atom, rest | .calls, rest => Words.Ends .atom rest
  | .arguments, rest | .moreArguments, rest => nextKind rest = .rightParenthesis
  | .primary, rest | .factor, rest => Words.Ends .factor rest
  | .term, rest | .moreFactors, rest => Words.Ends .term rest
  | .expression, rest | .moreTerms, rest => Words.Ends .expression rest

/-- How the tokens of a part begin, if it has any. -/
def Part.Begins : Part → List Token → Prop
  | .atom, w | .primary, w =>
    nextKind w = .number ∨ nextKind w = .identifier ∨ nextKind w = .leftParenthesis
  | .factor, w | .term, w | .expression, w =>
    nextKind w = .number ∨ nextKind w = .identifier ∨ nextKind w = .leftParenthesis ∨
      (nextKind w).isSign
  | _, _ => True

/-- An atom begins with a number, a name or a parenthesis, and a factor can begin with a sign. -/
theorem Phrase.begins : ∀ {p : Part} (d : Phrase p) (rest : List Token),
    p.Begins (d.tokens ++ rest)
  | _, .leaf _ (.inl h) _, _ => .inl h
  | _, .leaf _ (.inr h) _, _ => .inr (.inl h)
  | _, .group _ _ ho _ _ _, _ => .inr (.inr ho)
  | _, .primary base, rest => base.begins rest
  | _, .power base caret _ exponent, rest => by
    have hbase := base.begins (caret :: (exponent.tokens ++ rest))
    simpa [tokens, Part.Begins] using hbase
  | _, .factor operand, rest => by
    rcases operand.begins rest with h | h | h
    · exact .inl h
    · exact .inr (.inl h)
    · exact .inr (.inr (.inl h))
  | _, .signed _ h _, _ => .inr (.inr (.inr h))
  | _, .term first more, rest => by
    have hfirst := first.begins (more.tokens ++ rest)
    rwa [← List.append_assoc] at hfirst
  | _, .expression first more, rest => by
    have hfirst := first.begins (more.tokens ++ rest)
    rwa [← List.append_assoc] at hfirst
  | _, .noCall, _ | _, .call .., _ | _, .noArguments, _ | _, .someArguments .., _ => trivial
  | _, .noMoreArguments, _ | _, .moreArguments .., _ => trivial
  | _, .noMoreFactors, _ | _, .moreFactors .., _ => trivial
  | _, .noMoreTerms, _ | _, .moreTerms .., _ => trivial

/-- Behind the first factor of a term nothing goes on with it. -/
theorem Phrase.ends_factor (more : Phrase .moreFactors) {rest : List Token}
    (hrest : Part.Ends .term rest) : Part.Ends .factor (more.tokens ++ rest) := by
  cases more with
  | noMoreFactors => exact hrest.1
  | moreFactors operator h next more => exact Words.not_continues_of_joins (w := _ :: _) h

/-- Behind the first term of an expression nothing goes on with it. -/
theorem Phrase.ends_term (more : Phrase .moreTerms) {rest : List Token}
    (hrest : Part.Ends .expression rest) : Part.Ends .term (more.tokens ++ rest) := by
  cases more with
  | noMoreTerms => exact ⟨hrest.1, hrest.2.1⟩
  | moreTerms operator h next more => exact Words.not_continues_of_sign (w := _ :: _) h

/-- Behind an argument a comma or the end of the call follows. -/
theorem Phrase.ends_argument (more : Phrase .moreArguments) {rest : List Token}
    (hrest : Part.Ends .moreArguments rest) : Part.Ends .expression (more.tokens ++ rest) := by
  refine Words.not_continues_of_closes ?_
  cases more with
  | noMoreArguments => exact .inr (.inr hrest)
  | moreArguments comma h next more => exact .inr (.inl h)

/-- A closing parenthesis ends the expression before it. -/
theorem ends_expression_closing {closing : Token} (hc : closing.kind = .rightParenthesis)
    (rest : List Token) : Part.Ends .expression (closing :: rest) :=
  Words.not_continues_of_closes (.inr (.inr hc))

/-- A closing parenthesis ends the arguments before it. -/
theorem ends_arguments_closing {closing : Token} (hc : closing.kind = .rightParenthesis)
    (rest : List Token) : Part.Ends .arguments (closing :: rest) := hc

/-- A caret ends the atom before it. -/
theorem ends_atom_caret {caret : Token} (h : caret.kind = .caret) (rest : List Token) :
    Part.Ends .atom (caret :: rest) := by
  show caret.kind ≠ .leftParenthesis
  simp [h]

/-- What ends a factor ends the atom in it. -/
theorem ends_atom_of_factor {rest : List Token} (h : Part.Ends .factor rest) :
    Part.Ends .atom rest :=
  fun hopen => h (.inl hopen)

/-- No argument begins with the parenthesis that ends the call. -/
theorem Phrase.ne_closing (first : Phrase .expression) (w : List Token) :
    nextKind (first.tokens ++ w) ≠ .rightParenthesis := by
  intro hclose
  rcases first.begins w with h | h | h | h <;> simp [hclose, TokenKind.isSign] at h

/-- No primary begins with a sign. -/
theorem Phrase.not_isSign (operand : Phrase .primary) (w : List Token) :
    ¬(nextKind (operand.tokens ++ w)).isSign := by
  rcases operand.begins w with h | h | h <;> simp [h, TokenKind.isSign]

/-! ## One derivation -/

/-- Two phrases of a part that begin the same tokens, and with which neither part goes on, are the
same one. -/
theorem Phrase.unique : ∀ {p : Part} (d d' : Phrase p) {rest rest' : List Token}, p.Ends rest →
    p.Ends rest' → d.tokens ++ rest = d'.tokens ++ rest' → d = d' ∧ rest = rest'
  -- Atoms: both have the first token, which is a leaf or a parenthesis and never both.
  | _, .leaf token _ calls, .leaf token' _ calls', _, _, hr, hr', heq => by
    simp only [tokens, List.cons_append, List.cons.injEq] at heq
    obtain ⟨rfl, heq⟩ := heq
    obtain ⟨rfl, hrest⟩ := calls.unique calls' hr hr' heq
    exact ⟨rfl, hrest⟩
  | _, .leaf token h _, .group opening _ ho _ _ _, _, _, _, _, heq => by
    simp only [tokens, List.cons_append, List.cons.injEq] at heq
    simp [heq.1, ho] at h
  | _, .group opening _ ho _ _ _, .leaf token h _, _, _, _, _, heq => by
    simp only [tokens, List.cons_append, List.cons.injEq] at heq
    simp [← heq.1, ho] at h
  -- The closing parenthesis ends the inner expression of either group, so these are the same.
  | _, .group _ _ _ hc inner calls, .group _ _ _ hc' inner' calls', _, _, hr, hr', heq => by
    simp only [tokens, List.cons_append, List.append_assoc, List.cons.injEq] at heq
    obtain ⟨rfl, heq⟩ := heq
    obtain ⟨rfl, hclose⟩ := inner.unique inner' (ends_expression_closing hc _)
      (ends_expression_closing hc' _) heq
    obtain ⟨rfl, hcalls⟩ := List.cons.inj hclose
    obtain ⟨rfl, hrest⟩ := calls.unique calls' hr hr' hcalls
    exact ⟨rfl, hrest⟩
  -- Calls: one more call begins with a parenthesis, and what calls end at does not.
  | _, .noCall, .noCall, _, _, _, _, heq => ⟨rfl, heq⟩
  | _, .noCall, .call _ _ ho _ _ _, _, _, hr, _, heq => by
    obtain rfl : _ = _ :: _ := heq
    exact absurd ho hr
  | _, .call _ _ ho _ _ _, .noCall, _, _, _, hr', heq => by
    obtain rfl : _ :: _ = _ := heq
    exact absurd ho hr'
  | _, .call _ _ _ hc arguments calls, .call _ _ _ hc' arguments' calls', _, _, hr, hr', heq => by
    simp only [tokens, List.cons_append, List.append_assoc, List.cons.injEq] at heq
    obtain ⟨rfl, heq⟩ := heq
    obtain ⟨rfl, hclose⟩ := arguments.unique arguments' (ends_arguments_closing hc _)
      (ends_arguments_closing hc' _) heq
    obtain ⟨rfl, hcalls⟩ := List.cons.inj hclose
    obtain ⟨rfl, hrest⟩ := calls.unique calls' hr hr' hcalls
    exact ⟨rfl, hrest⟩
  -- Arguments: they end at a parenthesis, and an argument does not begin with that.
  | _, .noArguments, .noArguments, _, _, _, _, heq => ⟨rfl, heq⟩
  | _, .noArguments, .someArguments first more, _, rest', hr, _, heq => by
    have hfirst := first.ne_closing (more.tokens ++ rest')
    rw [← List.append_assoc, show first.tokens ++ more.tokens ++ rest' = _ from heq.symm] at hfirst
    exact absurd hr hfirst
  | _, .someArguments first more, .noArguments, rest, _, _, hr', heq => by
    have hfirst := first.ne_closing (more.tokens ++ rest)
    rw [← List.append_assoc, show first.tokens ++ more.tokens ++ rest = _ from heq] at hfirst
    exact absurd hr' hfirst
  | _, .someArguments first more, .someArguments first' more', _, _, hr, hr', heq => by
    simp only [tokens, List.append_assoc] at heq
    obtain ⟨rfl, hmore⟩ := first.unique first' (more.ends_argument hr) (more'.ends_argument hr') heq
    obtain ⟨rfl, hrest⟩ := more.unique more' hr hr' hmore
    exact ⟨rfl, hrest⟩
  -- More arguments: the next token is a comma or the parenthesis that they end at.
  | _, .noMoreArguments, .noMoreArguments, _, _, _, _, heq => ⟨rfl, heq⟩
  | _, .noMoreArguments, .moreArguments _ h _ _, _, _, hr, _, heq => by
    obtain rfl : _ = _ :: _ := heq
    exact absurd (h.symm.trans hr) (by simp)
  | _, .moreArguments _ h _ _, .noMoreArguments, _, _, _, hr', heq => by
    obtain rfl : _ :: _ = _ := heq
    exact absurd (h.symm.trans hr') (by simp)
  | _, .moreArguments _ _ next more, .moreArguments _ _ next' more', _, _, hr, hr', heq => by
    simp only [tokens, List.cons_append, List.append_assoc, List.cons.injEq] at heq
    obtain ⟨rfl, heq⟩ := heq
    obtain ⟨rfl, hmore⟩ := next.unique next' (more.ends_argument hr) (more'.ends_argument hr') heq
    obtain ⟨rfl, hrest⟩ := more.unique more' hr hr' hmore
    exact ⟨rfl, hrest⟩
  -- Primaries: the bases are the same, and behind them a caret goes on with a primary.
  | _, .primary base, .primary base', _, _, hr, hr', heq => by
    obtain ⟨rfl, hrest⟩ :=
      base.unique base' (ends_atom_of_factor hr) (ends_atom_of_factor hr') heq
    exact ⟨rfl, hrest⟩
  | _, .primary base, .power base' _ h _, _, _, hr, _, heq => by
    simp only [tokens, List.append_assoc] at heq
    obtain ⟨-, rfl⟩ := base.unique base' (ends_atom_of_factor hr) (ends_atom_caret h _) heq
    exact absurd (.inr h) hr
  | _, .power base _ h _, .primary base', _, _, _, hr', heq => by
    simp only [tokens, List.append_assoc] at heq
    obtain ⟨-, rfl⟩ := base.unique base' (ends_atom_caret h _) (ends_atom_of_factor hr') heq
    exact absurd (.inr h) hr'
  | _, .power base _ h exponent, .power base' _ h' exponent', _, _, hr, hr', heq => by
    simp only [tokens, List.append_assoc] at heq
    obtain ⟨rfl, hpower⟩ := base.unique base' (ends_atom_caret h _) (ends_atom_caret h' _) heq
    obtain ⟨rfl, hexponent⟩ := List.cons.inj hpower
    obtain ⟨rfl, hrest⟩ := exponent.unique exponent' hr hr' hexponent
    exact ⟨rfl, hrest⟩
  -- Factors: one begins with a sign, or both are primaries, which do not.
  | _, .factor operand, .factor operand', _, _, hr, hr', heq => by
    obtain ⟨rfl, hrest⟩ := operand.unique operand' hr hr' heq
    exact ⟨rfl, hrest⟩
  | _, .factor operand, .signed _ h _, rest, _, _, _, heq => by
    have hoperand := operand.not_isSign rest
    rw [show operand.tokens ++ rest = _ from heq] at hoperand
    exact absurd h hoperand
  | _, .signed _ h _, .factor operand', _, rest', _, _, heq => by
    have hoperand := operand'.not_isSign rest'
    rw [show operand'.tokens ++ rest' = _ from heq.symm] at hoperand
    exact absurd h hoperand
  | _, .signed _ _ operand, .signed _ _ operand', _, _, hr, hr', heq => by
    simp only [tokens, List.cons_append, List.cons.injEq] at heq
    obtain ⟨rfl, heq⟩ := heq
    obtain ⟨rfl, hrest⟩ := operand.unique operand' hr hr' heq
    exact ⟨rfl, hrest⟩
  -- Terms: the first factors end at the operators behind them, so they are the same.
  | _, .term first more, .term first' more', _, _, hr, hr', heq => by
    simp only [tokens, List.append_assoc] at heq
    obtain ⟨rfl, hmore⟩ := first.unique first' (more.ends_factor hr) (more'.ends_factor hr') heq
    obtain ⟨rfl, hrest⟩ := more.unique more' hr hr' hmore
    exact ⟨rfl, hrest⟩
  -- More factors: the next token joins factors, and a term does not end at such a token.
  | _, .noMoreFactors, .noMoreFactors, _, _, _, _, heq => ⟨rfl, heq⟩
  | _, .noMoreFactors, .moreFactors _ h _ _, _, _, hr, _, heq => by
    obtain rfl : _ = _ :: _ := heq
    exact absurd h hr.2
  | _, .moreFactors _ h _ _, .noMoreFactors, _, _, _, hr', heq => by
    obtain rfl : _ :: _ = _ := heq
    exact absurd h hr'.2
  | _, .moreFactors _ _ next more, .moreFactors _ _ next' more', _, _, hr, hr', heq => by
    simp only [tokens, List.cons_append, List.append_assoc, List.cons.injEq] at heq
    obtain ⟨rfl, heq⟩ := heq
    obtain ⟨rfl, hmore⟩ := next.unique next' (more.ends_factor hr) (more'.ends_factor hr') heq
    obtain ⟨rfl, hrest⟩ := more.unique more' hr hr' hmore
    exact ⟨rfl, hrest⟩
  -- Expressions: the first terms end at the signs behind them, so they are the same.
  | _, .expression first more, .expression first' more', _, _, hr, hr', heq => by
    simp only [tokens, List.append_assoc] at heq
    obtain ⟨rfl, hmore⟩ := first.unique first' (more.ends_term hr) (more'.ends_term hr') heq
    obtain ⟨rfl, hrest⟩ := more.unique more' hr hr' hmore
    exact ⟨rfl, hrest⟩
  -- More terms: the next token is a sign, and an expression does not end at a sign.
  | _, .noMoreTerms, .noMoreTerms, _, _, _, _, heq => ⟨rfl, heq⟩
  | _, .noMoreTerms, .moreTerms _ h _ _, _, _, hr, _, heq => by
    obtain rfl : _ = _ :: _ := heq
    exact absurd h hr.2.2
  | _, .moreTerms _ h _ _, .noMoreTerms, _, _, _, hr', heq => by
    obtain rfl : _ :: _ = _ := heq
    exact absurd h hr'.2.2
  | _, .moreTerms _ _ next more, .moreTerms _ _ next' more', _, _, hr, hr', heq => by
    simp only [tokens, List.cons_append, List.append_assoc, List.cons.injEq] at heq
    obtain ⟨rfl, heq⟩ := heq
    obtain ⟨rfl, hmore⟩ := next.unique next' (more.ends_term hr) (more'.ends_term hr') heq
    obtain ⟨rfl, hrest⟩ := more.unique more' hr hr' hmore
    exact ⟨rfl, hrest⟩

/-! ## What the parser makes of it -/

section

variable {last : Token}

/-- The rule for a part reads the tokens of `w` up to `rest` with the given meaning. -/
def Part.ReadsAs (last : Token) : (p : Part) → p.Meaning → List Token → List Token → Prop
  | .atom, t, w, rest => Parser.atom Words.rules (⟨w⟩ : Words last) = .ok t ⟨rest⟩
  | .calls, wrap, w, rest =>
    ∀ callee, Words.rules.calls callee (⟨w⟩ : Words last) = .ok (wrap callee) ⟨rest⟩
  | .arguments, trees, w, rest =>
    Parser.arguments Words.rules (⟨w⟩ : Words last) = .ok trees ⟨rest⟩
  | .moreArguments, trees, w, rest =>
    Words.rules.moreArguments (⟨w⟩ : Words last) = .ok trees ⟨rest⟩
  | .primary, t, w, rest => Parser.primary Words.rules (⟨w⟩ : Words last) = .ok t ⟨rest⟩
  | .factor, t, w, rest => Words.rules.factor (⟨w⟩ : Words last) = .ok t ⟨rest⟩
  | .term, t, w, rest => Words.rules.term (⟨w⟩ : Words last) = .ok t ⟨rest⟩
  | .moreFactors, wrap, w, rest =>
    ∀ left, Words.rules.moreFactors left (⟨w⟩ : Words last) = .ok (wrap left) ⟨rest⟩
  | .expression, t, w, rest => Words.rules.expression (⟨w⟩ : Words last) = .ok t ⟨rest⟩
  | .moreTerms, wrap, w, rest =>
    ∀ left, Words.rules.moreTerms left (⟨w⟩ : Words last) = .ok (wrap left) ⟨rest⟩

/-- A sign before a conventional factor is no operand. -/
theorem Phrase.not_operand (operand : Phrase .factor) {rest : List Token}
    (h : Part.ReadsAs last .factor operand.tree (operand.tokens ++ rest) rest) :
    ¬Operand (Words.RuleSkips last) (operand.tokens ++ rest) := by
  rintro (⟨hoperator, -⟩ | hno)
  · -- A factor begins with a number, a name, a parenthesis or another sign.
    have hbegins := operand.begins rest
    simp only [Part.Begins] at hbegins
    generalize nextKind (operand.tokens ++ rest) = kind at hoperator hbegins
    cases kind <;> simp_all [TokenKind.joinsFactors, TokenKind.isSign]
  · exact hno ⟨rest, operand.tree, h⟩

variable (hlast : last.kind = .endOfFile)
include hlast

/-- The rules read a phrase up to its end, with its tree. -/
theorem Phrase.readsAs : ∀ {p : Part} (d : Phrase p) {rest : List Token}, p.Ends rest →
    p.ReadsAs last d.tree (d.tokens ++ rest) rest
  -- Atoms, and calls behind them: what is in parentheses ends at the closing one.
  | _, .leaf token h calls, rest, hrest => by
    have hleaf : token.kind = .number ∨ token.kind = .identifier ∨ token.kind.isOperator :=
      h.imp_right .inl
    exact (Words.atom_leaf hlast hleaf _).trans (calls.readsAs hrest (.leaf token))
  | _, .group opening closing ho hc inner calls, rest, hrest => by
    have hinner := inner.readsAs (ends_expression_closing hc (calls.tokens ++ rest))
    have hcalls := calls.readsAs hrest inner.tree
    simp only [tokens, List.cons_append, List.append_assoc]
    show Parser.atom Words.rules _ = _
    rw [Words.atom_group hlast ho, Parser.bind_of_ok hinner, Words.expect_bind_cons hc, hcalls]
    rfl
  | _, .noCall, rest, hrest => fun callee => Words.calls_of_ne hlast hrest callee
  | _, .call opening closing ho hc arguments calls, rest, hrest => by
    intro callee
    have harguments := arguments.readsAs (ends_arguments_closing hc (calls.tokens ++ rest))
    have hcalls := calls.readsAs hrest (.call callee arguments.tree)
    simp only [tokens, List.cons_append, List.append_assoc]
    rw [Words.calls_cons hlast ho, Parser.bind_of_ok harguments, Words.expect_bind_cons hc, hcalls]
    rfl
  -- Without arguments the attempt at an expression fails at the closing parenthesis.
  | _, .noArguments, rest, hrest =>
    Words.arguments_of_error (Words.expression_stuck hlast (.inr (.inr hrest)))
  -- An argument ends at the comma or the parenthesis behind it.
  | _, .someArguments first more, rest, hrest => by
    have hfirst := first.readsAs (more.ends_argument hrest)
    have hmore := more.readsAs hrest
    simp only [tokens, List.append_assoc]
    exact (Words.arguments_of_ok hlast hfirst).trans (Parser.bind_of_ok hmore)
  | _, .noMoreArguments, rest, hrest => by
    have hcomma : nextKind rest ≠ .comma := fun hcomma => by cases hcomma.symm.trans hrest
    exact Words.moreArguments_of_ne hlast hcomma
  | _, .moreArguments comma h next more, rest, hrest => by
    have hnext := next.readsAs (more.ends_argument hrest)
    have hmore := more.readsAs hrest
    simp only [tokens, List.cons_append, List.append_assoc]
    show Words.rules.moreArguments _ = _
    rw [Words.moreArguments_cons hlast h, Parser.bind_of_ok hnext]
    exact Parser.bind_of_ok hmore
  -- A base ends at its caret, or where the whole primary ends, which is at none.
  | _, .primary base, rest, hrest => by
    have hbase := base.readsAs (ends_atom_of_factor hrest)
    exact Words.primary_of_atom hlast hbase fun hcaret => hrest (.inr hcaret)
  | _, .power base caret h exponent, rest, hrest => by
    have hbase := base.readsAs (ends_atom_caret h (exponent.tokens ++ rest))
    have hexponent := exponent.readsAs hrest
    simp only [tokens, List.append_assoc]
    exact (Words.primary_of_power hbase h).trans (Parser.bind_of_ok hexponent)
  -- A sign before a conventional operand is no operand itself, so both attempts are decided.
  | _, .factor operand, rest, hrest =>
    (Words.factor_of_not hlast (operand.not_isSign rest)).trans (operand.readsAs hrest)
  | _, .signed sign h operand, rest, hrest => by
    have hoperand := operand.readsAs hrest
    exact Words.factor_unary hlast h (operand.not_operand hoperand) hoperand
  -- A factor ends at the operator behind it, and the rule goes on with the two as one.
  | _, .term first more, rest, hrest => by
    have hfirst := first.readsAs (more.ends_factor hrest)
    have hmore := more.readsAs hrest first.tree
    simp only [tokens, List.append_assoc]
    show Words.rules.term _ = _
    rw [Words.term_eq hlast, Parser.bind_of_ok hfirst, hmore]
    rfl
  | _, .noMoreFactors, rest, hrest => fun left => Words.moreFactors_of_not hlast hrest.2 left
  | _, .moreFactors operator h next more, rest, hrest => by
    intro left
    have hnext := next.readsAs (more.ends_factor hrest)
    have hmore := more.readsAs hrest (.call (.leaf operator) [left, next.tree])
    simp only [tokens, List.cons_append, List.append_assoc]
    rw [Words.moreFactors_cons hlast h, Parser.bind_of_ok hnext, hmore]
    rfl
  -- So does a term at the sign behind it.
  | _, .expression first more, rest, hrest => by
    have hfirst := first.readsAs (more.ends_term hrest)
    have hmore := more.readsAs hrest first.tree
    simp only [tokens, List.append_assoc]
    show Words.rules.expression _ = _
    rw [Words.expression_eq hlast, Parser.bind_of_ok hfirst, hmore]
    rfl
  | _, .noMoreTerms, rest, hrest => fun left => Words.moreTerms_of_not hlast hrest.2.2 left
  | _, .moreTerms operator h next more, rest, hrest => by
    intro left
    have hnext := next.readsAs (more.ends_term hrest)
    have hmore := more.readsAs hrest (.call (.leaf operator) [left, next.tree])
    simp only [tokens, List.cons_append, List.append_assoc]
    rw [Words.moreTerms_cons hlast h, Parser.bind_of_ok hnext, hmore]
    rfl

end

/-- A conventional expression has one derivation, which is one of the whole grammar, and every text
with its tokens is parsed to the tree of that derivation. -/
theorem parse_conventional (d : Phrase .expression) :
    (∀ d' : Phrase .expression, d'.tokens = d.tokens → d' = d) ∧
      Derives .expression d.tokens (d.tree.map Atom.ofToken) ∧
      ∀ source, lex source = d.tokens ++ [Cursor.endToken source.toList] →
        parse source = .ok (d.tree.map Atom.ofToken) := by
  have hends : Part.Ends .expression [] := Words.not_continues_of_closes (.inl rfl)
  have hlast : (Cursor.endToken []).kind = .endOfFile := rfl
  have hrule := d.readsAs hlast hends
  obtain ⟨ts, hts, -, hreads⟩ :=
    (Words.soundOn hlast (d.tokens ++ [])).rule .expression d.tree [] (by simp) hrule
  obtain rfl : d.tokens = ts := by simpa using hts
  refine ⟨fun d' hd' => ?_, hreads.derives, fun source hlex => ?_⟩
  · have htokens : d'.tokens ++ [] = d.tokens ++ [] := by rw [hd']
    exact (d'.unique d hends hends htokens).1
  · rw [Words.ruleSkips_eq hlast] at hreads
    exact (parse_eq_ok_iff hlex (kind_ne_of_lex_eq hlex) _).mpr ⟨d.tree, hreads, rfl⟩

set_option maxRecDepth 8000 in
/-- A negated power with a sign in its exponent, times a call: each sign is a prefix, the first one
of the whole power. -/
theorem parse_negated_power_times_call :
    let x : Token := ⟨.identifier, "x", 1⟩
    let two : Token := ⟨.number, "2", 4⟩
    let f : Token := ⟨.identifier, "f", 6⟩
    let one : Token := ⟨.number, "1", 8⟩
    let y : Token := ⟨.identifier, "y", 10⟩
    let power : SyntaxTree :=
      .call (.leaf ⟨.caret, "^", 2⟩) [.leaf x, .call (.leaf ⟨.minus, "-", 3⟩) [.leaf two]]
    parse "-x^-2*f(1,y)" = .ok (Tree.map Atom.ofToken
      (.call (.leaf ⟨.star, "*", 5⟩) [.call (.leaf ⟨.minus, "-", 0⟩) [power],
        .call (.leaf f) [.leaf one, .leaf y]])) := by
  intro x two f one y power
  let operand (token : Token) (h : token.kind = .number ∨ token.kind = .identifier) :
      Phrase .factor := .factor (.primary (.leaf token h .noCall))
  let argument (token : Token) (h : token.kind = .number ∨ token.kind = .identifier) :
      Phrase .expression := .expression (.term (operand token h) .noMoreFactors) .noMoreTerms
  let arguments : Phrase .arguments := .someArguments (argument one (.inl rfl))
    (.moreArguments ⟨.comma, ",", 9⟩ rfl (argument y (.inr rfl)) .noMoreArguments)
  let call : Phrase .atom := .leaf f (.inr rfl)
    (.call ⟨.leftParenthesis, "(", 7⟩ ⟨.rightParenthesis, ")", 11⟩ rfl rfl arguments .noCall)
  let exponent : Phrase .factor := .signed ⟨.minus, "-", 3⟩ rfl (operand two (.inl rfl))
  let first : Phrase .factor := .signed ⟨.minus, "-", 0⟩ rfl
    (.factor (.power (.leaf x (.inr rfl) .noCall) ⟨.caret, "^", 2⟩ rfl exponent))
  let product : Phrase .expression := .expression (.term first
    (.moreFactors ⟨.star, "*", 5⟩ rfl (.factor (.primary call)) .noMoreFactors)) .noMoreTerms
  exact (parse_conventional product).2.2 _ rfl

end LineCalc.Conventional
