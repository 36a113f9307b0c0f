import LineCalc.Proofs.Lexing.Boundary
import LineCalc.Proofs.Lexing.Lexemes
import LineCalc.Proofs.Parsing.Acceptance

/-!
# Spellings of trees

A tree is spelled by lexemes, with every operand, callee and argument list in parentheses
(`Spells`). A call of an operator can be spelled in more than one way, and every spelling of a tree
is parsed to it (`parse_spelling`).

Between text and tree stand the tokens of a spelling (`Spelled`). Parentheses and commas end the
lexemes before them, so the text is read as such tokens. And these have a derivation that the
parser follows: behind a sign there is either a group, which is a factor, and then the sign is a
prefix, or the end of what it stands in, and then it is an operand.
-/

namespace LineCalc

open LineCalc.Parser (Production)

/-! ## Spellings as texts -/

/-- A text is the lexeme of a leaf. -/
inductive Lexeme : Atom → String → Prop
  | number {w : String} (h : lex w = [⟨.number, w, 0⟩, Cursor.endToken w.toList]) :
    Lexeme (.number (Literal.toBinary64 w.toList)) w
  | name {w : String} (h : lex w = [⟨.identifier, w, 0⟩, Cursor.endToken w.toList]) :
    Lexeme (.identifier w) w
  | operator (op : Operator) : Lexeme (.identifier op.symbol) op.symbol

mutual

/-- The texts that spell a tree. -/
inductive Spells : Expr → String → Prop
  | leaf {a : Atom} {w : String} (h : Lexeme a w) : Spells (.leaf a) w
  | call {callee : Expr} {arguments : List Expr} {c s : String} (hcallee : Spells callee c)
    (harguments : SpellsArguments arguments s) :
    Spells (.call callee arguments) ("(" ++ c ++ ")(" ++ s ++ ")")
  | binary (op : Operator) {left right : Expr} {l r : String} (hleft : Spells left l)
    (hright : Spells right r) :
    Spells (.call (.leaf (.identifier op.symbol)) [left, right])
      ("(" ++ l ++ ") " ++ op.symbol ++ " (" ++ r ++ ")")
  | unary (op : Operator) (hop : op.isSign) {operand : Expr} {s : String}
    (hoperand : Spells operand s) :
    Spells (.call (.leaf (.identifier op.symbol)) [operand]) (op.symbol ++ "(" ++ s ++ ")")

/-- The texts that spell the arguments of a call, with a comma and a blank between them. -/
inductive SpellsArguments : List Expr → String → Prop
  | none : SpellsArguments [] ""
  | some {e : Expr} {es : List Expr} {s r : String} (h : Spells e s) (hr : SpellsMore es r) :
    SpellsArguments (e :: es) (s ++ r)

/-- The texts that spell the arguments after the first. -/
inductive SpellsMore : List Expr → String → Prop
  | nil : SpellsMore [] ""
  | cons {e : Expr} {es : List Expr} {s r : String} (h : Spells e s) (hr : SpellsMore es r) :
    SpellsMore (e :: es) (", " ++ s ++ r)

end

mutual

/-- A tree has a spelling if its leaves have lexemes. -/
theorem exists_spells : (e : Expr) → (∀ a ∈ e.leaves, ∃ w, Lexeme a w) → ∃ s, Spells e s
  | .leaf a, h => by
    obtain ⟨w, hw⟩ := h a (List.mem_singleton_self a)
    exact ⟨w, .leaf hw⟩
  | .call callee arguments, h => by
    rw [Tree.leaves] at h
    obtain ⟨c, hc⟩ := exists_spells callee fun a ha => h a (List.mem_append_left _ ha)
    obtain ⟨s, hs⟩ := exists_spellsArguments arguments fun a ha => h a (List.mem_append_right _ ha)
    exact ⟨_, .call hc hs⟩

/-- Arguments have spellings if their leaves have lexemes. -/
theorem exists_spellsArguments : (es : List Expr) →
    (∀ a ∈ Tree.leavesList es, ∃ w, Lexeme a w) → ∃ s, SpellsArguments es s
  | [], _ => ⟨"", .none⟩
  | e :: es, h => by
    rw [Tree.leavesList] at h
    obtain ⟨s, hs⟩ := exists_spells e fun a ha => h a (List.mem_append_left _ ha)
    obtain ⟨r, hr⟩ := exists_spellsMore es fun a ha => h a (List.mem_append_right _ ha)
    exact ⟨s ++ r, .some hs hr⟩

/-- Arguments after the first have spellings if their leaves have lexemes. -/
theorem exists_spellsMore : (es : List Expr) →
    (∀ a ∈ Tree.leavesList es, ∃ w, Lexeme a w) → ∃ s, SpellsMore es s
  | [], _ => ⟨"", .nil⟩
  | e :: es, h => by
    rw [Tree.leavesList] at h
    obtain ⟨s, hs⟩ := exists_spells e fun a ha => h a (List.mem_append_left _ ha)
    obtain ⟨r, hr⟩ := exists_spellsMore es fun a ha => h a (List.mem_append_right _ ha)
    exact ⟨", " ++ s ++ r, .cons hs hr⟩

end

/-! ## Spellings as tokens -/

mutual

/-- The tokens that spell a tree. -/
inductive Spelled : Expr → List Token → Prop
  | leaf {token : Token}
    (h : token.kind = .number ∨ token.kind = .identifier ∨ token.kind.isOperator) :
    Spelled (.leaf (Atom.ofToken token)) [token]
  | call {callee : Expr} {arguments : List Expr} {ts us : List Token}
    {first second third fourth : Token} (hcallee : Spelled callee ts)
    (harguments : SpelledArguments arguments us) (hfirst : first.kind = .leftParenthesis)
    (hsecond : second.kind = .rightParenthesis) (hthird : third.kind = .leftParenthesis)
    (hfourth : fourth.kind = .rightParenthesis) :
    Spelled (.call callee arguments) ((first :: ts ++ [second]) ++ third :: us ++ [fourth])
  | binary (op : Operator) {left right : Expr} {ts us : List Token}
    {first second operator third fourth : Token} (hleft : Spelled left ts)
    (hright : Spelled right us) (hfirst : first.kind = .leftParenthesis)
    (hsecond : second.kind = .rightParenthesis) (hkind : operator.kind = op.kind)
    (hlexeme : operator.lexeme = op.symbol) (hthird : third.kind = .leftParenthesis)
    (hfourth : fourth.kind = .rightParenthesis) :
    Spelled (.call (.leaf (.identifier op.symbol)) [left, right])
      ((first :: ts ++ [second]) ++ operator :: (third :: us ++ [fourth]))
  | unary (op : Operator) (hop : op.isSign) {operand : Expr} {ts : List Token}
    {sign first second : Token} (hoperand : Spelled operand ts) (hkind : sign.kind = op.kind)
    (hlexeme : sign.lexeme = op.symbol) (hfirst : first.kind = .leftParenthesis)
    (hsecond : second.kind = .rightParenthesis) :
    Spelled (.call (.leaf (.identifier op.symbol)) [operand]) (sign :: (first :: ts ++ [second]))

/-- The tokens that spell the arguments of a call. -/
inductive SpelledArguments : List Expr → List Token → Prop
  | none : SpelledArguments [] []
  | some {e : Expr} {es : List Expr} {ts us : List Token} (h : Spelled e ts)
    (hus : SpelledMore es us) : SpelledArguments (e :: es) (ts ++ us)

/-- The tokens that spell the arguments after the first. -/
inductive SpelledMore : List Expr → List Token → Prop
  | nil : SpelledMore [] []
  | cons {comma : Token} {e : Expr} {es : List Expr} {ts us : List Token}
    (hcomma : comma.kind = .comma) (h : Spelled e ts) (hus : SpelledMore es us) :
    SpelledMore (e :: es) (comma :: ts ++ us)

end

/-! ## Spellings are read -/

/-- No factor starts where an expression has to be at its end. -/
theorem not_skips_of_closes {w : List Token} (h : Closes w) : ¬∃ v, Skips w v := by
  have hlast : (Cursor.endToken []).kind = .endOfFile := rfl
  rw [← Words.ruleSkips_eq hlast]
  rintro ⟨v, t, ht⟩
  rw [Words.factor_stuck hlast h] at ht
  cases ht

/-- A primary that does not start with a sign is a factor. -/
theorem reads_factor_of_not_sign {first : Token} {ts after : List Token} {t : SyntaxTree}
    (hfirst : ¬first.kind.isSign) (h : Reads .primary (first :: ts) after t) :
    Reads .factor (first :: ts) after t := by
  refine .factor h fun sign us hus hsign => ?_
  obtain ⟨rfl, -⟩ := List.cons.inj hus
  exact absurd hsign hfirst

/-- A primary that starts with a parenthesis is a factor. -/
theorem reads_factor_of_primary {first : Token} {ts after : List Token} {t : SyntaxTree}
    (hfirst : first.kind = .leftParenthesis) (h : Reads .primary (first :: ts) after t) :
    Reads .factor (first :: ts) after t :=
  reads_factor_of_not_sign (by simp [hfirst, TokenKind.isSign]) h

/-- A group is a factor. -/
theorem reads_factor_of_group {first second : Token} {ts after : List Token} {t : SyntaxTree}
    (hfirst : first.kind = .leftParenthesis) (hsecond : second.kind = .rightParenthesis)
    (h : Reads .expression ts (second :: after) t) :
    Reads .factor (first :: ts ++ [second]) after t :=
  reads_factor_of_primary hfirst (.primary (.group hfirst h hsecond))

/-- Before the end of what a sign stands in, the sign is an operand. -/
theorem reads_expression_of_leaf {token : Token} {after : List Token}
    (h : token.kind = .number ∨ token.kind = .identifier ∨ token.kind.isOperator)
    (hafter : Closes after) : Reads .expression [token] after (.leaf token) := by
  refine .expression (.term (.factor (.primary (.leaf h)) fun sign us hus _ => .inr ?_))
  rw [List.cons.injEq] at hus
  rw [← hus.2]
  exact not_skips_of_closes hafter

/-- Before a group that is a factor, a sign is a prefix. -/
theorem reads_factor_of_sign {sign first second : Token} {ts after : List Token} {t : SyntaxTree}
    (hsign : sign.kind.isSign) (hfirst : first.kind = .leftParenthesis)
    (hsecond : second.kind = .rightParenthesis) (h : Reads .expression ts (second :: after) t)
    (hafter : Closes after) :
    Reads .factor (sign :: (first :: ts ++ [second])) after (.call (.leaf sign) [t]) := by
  have hgroup := reads_factor_of_group hfirst hsecond h
  have hnext := (Words.not_continues_of_closes hafter).1
  -- A parenthesis is no operator, and a factor starts with it, so the sign is no operand.
  refine .signed hsign hgroup ?_
  rintro (⟨hoperator, -⟩ | hno)
  · have hkind : nextKind (first :: ts ++ [second] ++ after) = .leftParenthesis := hfirst
    rw [hkind] at hoperator
    simp [TokenKind.joinsFactors] at hoperator
  · exact hno ⟨after, (settled_skips _ _).mpr ⟨_, t, rfl, hnext, hgroup⟩⟩

/-- A group, an operator and a group are an expression, by the production of the operator. -/
theorem reads_expression_of_binary (op : Operator) {first second operator third fourth : Token}
    {ts us after : List Token} {left right : SyntaxTree}
    (hfirst : first.kind = .leftParenthesis) (hsecond : second.kind = .rightParenthesis)
    (hkind : operator.kind = op.kind) (hthird : third.kind = .leftParenthesis)
    (hfourth : fourth.kind = .rightParenthesis)
    (hleft : Reads .expression ts (second :: operator :: (third :: us ++ [fourth]) ++ after) left)
    (hright : Reads .expression us (fourth :: after) right) :
    Reads .expression ((first :: ts ++ [second]) ++ operator :: (third :: us ++ [fourth])) after
      (.call (.leaf operator) [left, right]) := by
  have hfactor := reads_factor_of_group hfirst hsecond hleft
  have hgroup := reads_factor_of_group hthird hfourth hright
  have hsum (h : operator.kind.isSign) :
      Reads .expression ((first :: ts ++ [second]) ++ operator :: (third :: us ++ [fourth])) after
        (.call (.leaf operator) [left, right]) :=
    .sum (.expression (.term hfactor)) h (.term hgroup)
  have hproduct (h : operator.kind.joinsFactors) :
      Reads .expression ((first :: ts ++ [second]) ++ operator :: (third :: us ++ [fourth])) after
        (.call (.leaf operator) [left, right]) :=
    .expression (.product (.term hfactor) h hgroup)
  -- Two groups are joined by a sum, by a product, or by a power, which has an atom on its left.
  cases op with
  | add => exact hsum (by simp [hkind, Operator.kind, TokenKind.isSign])
  | subtract => exact hsum (by simp [hkind, Operator.kind, TokenKind.isSign])
  | multiply => exact hproduct (by simp [hkind, Operator.kind, TokenKind.joinsFactors])
  | divide => exact hproduct (by simp [hkind, Operator.kind, TokenKind.joinsFactors])
  | remainder => exact hproduct (by simp [hkind, Operator.kind, TokenKind.joinsFactors])
  | power =>
    have hpower := ReadsWith.power (.group hfirst hleft hsecond) hkind hgroup
    exact .expression (.term (reads_factor_of_primary hfirst hpower))

/-- Some tokens are read as an expression wherever it has to end behind them. -/
def Expresses (e : Expr) (ts : List Token) : Prop :=
  ∀ after, Closes after → ∃ t, Reads .expression ts after t ∧ t.map Atom.ofToken = e

/-- Some tokens are read as the arguments of a call, if it ends behind them. -/
def ExpressesArguments (es : List Expr) (ts : List Token) : Prop :=
  ∀ after, nextKind after = .rightParenthesis →
    ∃ trees, ReadsArguments Skips ts after trees ∧ Tree.mapList Atom.ofToken trees = es

/-- Some tokens are read as the arguments after the first, if the call ends behind them. -/
def ExpressesMore (es : List Expr) (ts : List Token) : Prop :=
  ∀ after, nextKind after = .rightParenthesis →
    ∃ trees, ReadsMore Skips ts after trees ∧ Tree.mapList Atom.ofToken trees = es

/-- A call may have no arguments. -/
theorem ExpressesArguments.none : ExpressesArguments [] [] :=
  fun _ _ => ⟨[], .none, rfl⟩

/-- No arguments may come after the first. -/
theorem ExpressesMore.nil : ExpressesMore [] [] :=
  fun _ _ => ⟨[], .nil, rfl⟩

namespace Expresses

variable {e : Expr} {es : List Expr} {ts us : List Token}

/-- In parentheses they are read as the same expression. -/
theorem group {first second : Token} (h : Expresses e ts) (hfirst : first.kind = .leftParenthesis)
    (hsecond : second.kind = .rightParenthesis) : Expresses e (first :: ts ++ [second]) := by
  intro after _
  obtain ⟨t, ht, hmap⟩ := h (second :: after) (.inr (.inr hsecond))
  exact ⟨t, .expression (.term (reads_factor_of_group hfirst hsecond ht)), hmap⟩

/-- They are read as the first of some arguments. -/
theorem arguments (h : Expresses e ts) (hus : ExpressesMore es us) :
    ExpressesArguments (e :: es) (ts ++ us) := by
  intro after hafter
  obtain ⟨trees, htrees, hmore⟩ := hus after hafter
  obtain ⟨t, ht, hfirst⟩ := h (us ++ after) (htrees.closes hafter)
  exact ⟨t :: trees, .some ht htrees, by rw [Tree.mapList, hfirst, hmore]⟩

/-- Behind a comma they are read as one more argument. -/
theorem more {comma : Token} (hcomma : comma.kind = .comma) (h : Expresses e ts)
    (hus : ExpressesMore es us) : ExpressesMore (e :: es) (comma :: ts ++ us) := by
  intro after hafter
  obtain ⟨trees, htrees, hmore⟩ := hus after hafter
  obtain ⟨t, ht, hfirst⟩ := h (us ++ after) (htrees.closes hafter)
  exact ⟨t :: trees, .cons hcomma ht htrees, by rw [Tree.mapList, hfirst, hmore]⟩

end Expresses

mutual

/-- The tokens that spell a tree are read as it where an expression has to end behind them. -/
theorem Spelled.exists_reads : ∀ {e : Expr} {ts : List Token}, Spelled e ts → Expresses e ts
  | _, _, .leaf h => fun _ hafter => ⟨_, reads_expression_of_leaf h hafter, rfl⟩
  | _, _, .call hcallee harguments hfirst hsecond hthird hfourth => by
    intro after _
    -- The arguments close before the last parenthesis, and the callee before its own.
    obtain ⟨trees, htrees, hmap⟩ := harguments.exists_reads (_ :: after) hfourth
    obtain ⟨t, ht, hcalled⟩ := hcallee.exists_reads (_ :: (_ :: _ ++ _ :: after))
      (.inr (.inr hsecond))
    refine ⟨.call t trees, ?_, by rw [Tree.map, hcalled, hmap]⟩
    have hcall := ReadsWith.call (.group hfirst ht hsecond) hthird htrees hfourth
    exact .expression (.term (reads_factor_of_primary hfirst (.primary hcall)))
  | _, _, .binary op hleft hright hfirst hsecond hkind hlexeme hthird hfourth => by
    intro after _
    obtain ⟨left, hl, hlmap⟩ := hleft.exists_reads (_ :: (_ :: _ ++ after))
      (.inr (.inr hsecond))
    obtain ⟨right, hr, hrmap⟩ := hright.exists_reads (_ :: after) (.inr (.inr hfourth))
    refine ⟨_, reads_expression_of_binary op hfirst hsecond hkind hthird hfourth hl hr, ?_⟩
    have hnumber : op.kind ≠ .number := by cases op <;> simp [Operator.kind]
    rw [map_ofToken_operator (hkind ▸ hnumber), hlexeme]
    simp only [List.map_cons, List.map_nil, hlmap, hrmap]
  | _, _, .unary op hop hoperand hkind hlexeme hfirst hsecond => by
    intro after hafter
    obtain ⟨t, ht, hmap⟩ := hoperand.exists_reads (_ :: after) (.inr (.inr hsecond))
    have hsign : op.kind.isSign := by cases op <;> simp_all [Operator.kind, Operator.isSign,
      TokenKind.isSign]
    have hnumber : op.kind ≠ .number := by cases op <;> simp [Operator.kind]
    refine ⟨_, .expression (.term (reads_factor_of_sign (hkind ▸ hsign) hfirst hsecond ht hafter)),
      ?_⟩
    rw [map_ofToken_operator (hkind ▸ hnumber), hlexeme]
    simp only [List.map_cons, List.map_nil, hmap]

/-- The tokens that spell arguments are read as them before the end of the call. -/
theorem SpelledArguments.exists_reads : ∀ {es : List Expr} {ts : List Token},
    SpelledArguments es ts → ExpressesArguments es ts
  | _, _, .none => .none
  | _, _, .some h hus => h.exists_reads.arguments hus.exists_reads

/-- The tokens that spell arguments after the first are read as them before the end. -/
theorem SpelledMore.exists_reads : ∀ {es : List Expr} {ts : List Token},
    SpelledMore es ts → ExpressesMore es ts
  | _, _, .nil => .nil
  | _, _, .cons hcomma h hus => h.exists_reads.more hcomma hus.exists_reads

end

/-! ## From texts to tokens -/

/-- Characters in parentheses are read as a group of what they are read as before a parenthesis. -/
theorem Lexes.group {P : List Token → Prop} {cs : List Char}
    (h : ∀ post, Stops post → Lexes P cs post) (post : List Char) :
    Lexes (fun ts => ∃ first us second, ts = first :: us ++ [second] ∧
      first.kind = .leftParenthesis ∧ second.kind = .rightParenthesis ∧ P us)
      ('(' :: cs ++ [')']) post := by
  have hstops : Stops ([')'] ++ post) := by
    rintro c hc
    exact .inr (.inl (.inr (Option.some.inj hc).symm))
  have hclose : Lexes _ [')'] post :=
    symbol (rfl : TokenKind.ofSymbol? ')' = some .rightParenthesis)
  have hopen : Lexes _ ['('] (cs ++ [')'] ++ post) :=
    symbol (rfl : TokenKind.ofSymbol? '(' = some .leftParenthesis)
  refine (hopen.append ((h _ hstops).append hclose)).mono ?_
  rintro ts ⟨_, _, rfl, ⟨first, rfl, hfirst, -⟩, us, _, rfl, hus, second, rfl, hsecond, -⟩
  exact ⟨first, us, second, rfl, hfirst, hsecond, hus⟩

/-- The symbol of an operator is a token by itself. -/
theorem Lexes.operator (op : Operator) (post : List Char) :
    Lexes (fun ts => ∃ token, ts = [token] ∧ token.kind = op.kind ∧ token.lexeme = op.symbol)
      op.symbol.toList post := by
  cases op <;> exact symbol rfl

/-- A lexeme is read as a token that stands for its leaf. -/
theorem Lexeme.lexes {a : Atom} {w : String} (h : Lexeme a w) (post : List Char)
    (hpost : Stops post) : Lexes (Spelled (.leaf a)) w.toList post := by
  cases h with
  | number h =>
    refine (Lexes.lexeme (by simp) h hpost).mono ?_
    rintro ts ⟨token, rfl, hkind, hlexeme⟩
    have hleaf : Spelled (.leaf (Atom.ofToken token)) [token] := .leaf (.inl hkind)
    unfold Atom.ofToken at hleaf
    rwa [if_pos hkind, hlexeme] at hleaf
  | name h =>
    refine (Lexes.lexeme (by simp) h hpost).mono ?_
    rintro ts ⟨token, rfl, hkind, hlexeme⟩
    have hleaf : Spelled (.leaf (Atom.ofToken token)) [token] := .leaf (.inr (.inl hkind))
    rwa [Atom.ofToken_of_ne (by simp [hkind]), hlexeme] at hleaf
  | operator op =>
    refine (Lexes.operator op post).mono ?_
    rintro ts ⟨token, rfl, hkind, hlexeme⟩
    have hoperator : token.kind.isOperator ∧ token.kind ≠ .number := by
      rw [hkind]
      cases op <;> decide
    have hleaf : Spelled (.leaf (Atom.ofToken token)) [token] := .leaf (.inr (.inr hoperator.1))
    rwa [Atom.ofToken_of_ne hoperator.2, hlexeme] at hleaf

/-- Spelled arguments are followed by a comma, or by what follows all of them. -/
theorem SpellsMore.stops {es : List Expr} {r : String} (h : SpellsMore es r) {post : List Char}
    (hpost : Stops post) : Stops (r.toList ++ post) := by
  cases h with
  | nil => exact hpost
  | @cons e es s r _ _ =>
    have hlist : (", " ++ s ++ r).toList = ',' :: ' ' :: (s.toList ++ r.toList) := by simp
    rw [hlist]
    intro c hc
    exact .inl (Option.some.inj hc).symm

mutual

/-- A spelling is read as tokens that spell the same tree. -/
theorem Spells.lexes : ∀ {e : Expr} {s : String}, Spells e s → ∀ post, Stops post →
    Lexes (Spelled e) s.toList post
  | _, _, .leaf h, post, hpost => h.lexes post hpost
  | _, _, @Spells.call _ _ c s hcallee harguments, post, _ => by
    have hlist : ("(" ++ c ++ ")(" ++ s ++ ")").toList =
        ('(' :: c.toList ++ [')']) ++ ('(' :: s.toList ++ [')']) := by simp
    rw [hlist]
    refine ((Lexes.group hcallee.lexes _).append (Lexes.group harguments.lexes post)).mono ?_
    rintro ts ⟨_, _, rfl, ⟨first, us, second, rfl, hfirst, hsecond, hus⟩,
      third, vs, fourth, rfl, hthird, hfourth, hvs⟩
    have hcall := Spelled.call hus hvs hfirst hsecond hthird hfourth
    rwa [List.append_assoc] at hcall
  | _, _, @Spells.binary op _ _ l r hleft hright, post, _ => by
    -- The blanks around the operator are pieces of their own, and no tokens.
    have hlist : ("(" ++ l ++ ") " ++ op.symbol ++ " (" ++ r ++ ")").toList =
        ('(' :: l.toList ++ [')']) ++ ([' '] ++ (op.symbol.toList ++ ([' '] ++
          ('(' :: r.toList ++ [')'])))) := by simp
    have hblank : Text.isBlank ' ' = true := by decide
    rw [hlist]
    refine ((Lexes.group hleft.lexes _).append ((Lexes.blank hblank).append
      ((Lexes.operator op _).append ((Lexes.blank hblank).append
        (Lexes.group hright.lexes post))))).mono ?_
    rintro ts ⟨_, _, rfl, ⟨first, us, second, rfl, hfirst, hsecond, hus⟩, _, _, rfl, rfl, _, _, rfl,
      ⟨operator, rfl, hkind, hlexeme⟩, _, _, rfl, rfl,
      third, vs, fourth, rfl, hthird, hfourth, hvs⟩
    exact .binary op hus hvs hfirst hsecond hkind hlexeme hthird hfourth
  | _, _, @Spells.unary op hop _ s hoperand, post, _ => by
    have hlist : (op.symbol ++ "(" ++ s ++ ")").toList =
        op.symbol.toList ++ ('(' :: s.toList ++ [')']) := by simp
    rw [hlist]
    refine ((Lexes.operator op _).append (Lexes.group hoperand.lexes post)).mono ?_
    rintro ts ⟨_, _, rfl, ⟨sign, rfl, hkind, hlexeme⟩,
      first, us, second, rfl, hfirst, hsecond, hus⟩
    exact .unary op hop hus hkind hlexeme hfirst hsecond

/-- Spelled arguments are read as tokens that spell them. -/
theorem SpellsArguments.lexes : ∀ {es : List Expr} {s : String}, SpellsArguments es s →
    ∀ post, Stops post → Lexes (SpelledArguments es) s.toList post
  | _, _, .none, post, _ => by
    refine Lexes.nil.mono ?_
    rintro ts rfl
    exact .none
  | _, _, @SpellsArguments.some _ _ s r h hr, post, hpost => by
    rw [String.toList_append]
    refine ((h.lexes _ (hr.stops hpost)).append (hr.lexes post hpost)).mono ?_
    rintro ts ⟨us, vs, rfl, hus, hvs⟩
    exact .some hus hvs

/-- Spelled arguments after the first are read as tokens that spell them. -/
theorem SpellsMore.lexes : ∀ {es : List Expr} {s : String}, SpellsMore es s →
    ∀ post, Stops post → Lexes (SpelledMore es) s.toList post
  | _, _, .nil, post, _ => by
    refine Lexes.nil.mono ?_
    rintro ts rfl
    exact .nil
  | _, _, @SpellsMore.cons _ _ s r h hr, post, hpost => by
    have hlist : (", " ++ s ++ r).toList = [','] ++ ([' '] ++ (s.toList ++ r.toList)) := by simp
    have hcomma : TokenKind.ofSymbol? ',' = some .comma := rfl
    have hblank : Text.isBlank ' ' = true := by decide
    rw [hlist]
    refine ((Lexes.symbol hcomma).append ((Lexes.blank hblank).append
      ((h.lexes _ (hr.stops hpost)).append (hr.lexes post hpost)))).mono ?_
    rintro ts ⟨_, _, rfl, ⟨comma, rfl, hkind, -⟩, _, _, rfl, rfl, us, vs, rfl, hus, hvs⟩
    have hmore := SpelledMore.cons hkind hus hvs
    exact hmore

end

/-- Every tree whose leaves have lexemes has a spelling, and each of its spellings is parsed to it,
whichever way its calls are spelled. -/
theorem parse_spelling (e : Expr) (h : ∀ a ∈ e.leaves, ∃ w, Lexeme a w) :
    (∃ s, Spells e s) ∧ ∀ s, Spells e s → parse s = .ok e := by
  refine ⟨exists_spells e h, fun s hs => ?_⟩
  have hlexes := hs.lexes [] (fun _ hc => by cases hc) (Cursor.ofString s)
    (List.append_nil _).symm
  obtain ⟨ts, after, htokens, hafter, hspelled⟩ := hlexes
  obtain ⟨all, hall, hkinds⟩ := lex_eq_append s
  obtain ⟨t, ht, hmap⟩ := hspelled.exists_reads [] (.inl rfl)
  -- Nothing is left behind the spelling but the end of the file.
  have hend : after.tokens = [Cursor.endToken after.source] :=
    Cursor.tokens_of_blank (by rw [hafter]; rfl)
  have hlex : all ++ [Cursor.endToken s.toList] = ts ++ [Cursor.endToken after.source] := by
    rw [← hall, ← hend]
    exact htokens
  obtain ⟨rfl, -⟩ := List.append_inj' hlex rfl
  exact (parse_eq_ok_iff hall hkinds e).mpr ⟨t, ht, hmap⟩

set_option maxRecDepth 4000 in
/-- A negated call with an operator among its arguments, which has a spelling that is parsed. -/
theorem parse_spelling_negated_call :
    let two : Expr := .leaf (.number (Literal.toBinary64 "2".toList))
    let call : Expr := .call (.leaf (.identifier "f")) [two, .leaf (.identifier "+")]
    parse "-((f)(2, +))" = .ok (.call (.leaf (.identifier "-")) [call]) := by
  intro two call
  have hname : Lexeme (.identifier "f") "f" := .name rfl
  have hnumber : Lexeme (.number (Literal.toBinary64 "2".toList)) "2" := .number rfl
  have hplus : Lexeme (.identifier "+") "+" := .operator .add
  have hminus : Lexeme (.identifier "-") "-" := .operator .subtract
  have hleaves : ∀ a ∈ Tree.leaves (.call (.leaf (.identifier "-")) [call]), ∃ w, Lexeme a w := by
    intro a ha
    have hcases : a = .identifier "-" ∨ a = .identifier "f" ∨
        a = .number (Literal.toBinary64 "2".toList) ∨ a = .identifier "+" := by
      simpa [call, two, Tree.leaves, Tree.leavesList] using ha
    rcases hcases with rfl | rfl | rfl | rfl
    · exact ⟨"-", hminus⟩
    · exact ⟨"f", hname⟩
    · exact ⟨"2", hnumber⟩
    · exact ⟨"+", hplus⟩
  have harguments : SpellsArguments [two, .leaf (.identifier "+")] ("2" ++ (", " ++ "+" ++ "")) :=
    .some (.leaf hnumber) (.cons (.leaf hplus) .nil)
  have hspells : Spells (.call (.leaf (.identifier "-")) [call])
      ("-" ++ "(" ++ ("(" ++ "f" ++ ")(" ++ ("2" ++ (", " ++ "+" ++ "")) ++ ")") ++ ")") :=
    .unary .subtract rfl (.call (.leaf hname) harguments)
  exact (parse_spelling _ hleaves).2 _ hspells

end LineCalc
