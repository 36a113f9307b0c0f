import LineCalc.Proofs.Lexing.Spacing
import LineCalc.Proofs.Parsing.Places

/-!
# Tokens under other names

The rules of the parser decide by the kinds of tokens alone. So if each token of a list is replaced
by one of the same kind, they do the same on the new list, and the trees and errors that they give
have the new tokens in the place of the old ones (`Words.rule_rename`). `Renames` says this of two
computations, and like `Simulates` it is kept by every way in which the rules are put together.

The use of it is to take the places of tokens away. Two texts with the same tokens apart from their
places are parsed to the same expression, or fail with the same expected kinds at tokens that are
the same apart from their places (`parse_eq_of_unplaced`).
-/

namespace LineCalc

open LineCalc.Parser (Production Rules)

/-! ## Trees and errors -/

namespace Tree

variable {α β γ : Type}

mutual

/-- Leaves can be replaced in two steps or in one. -/
theorem map_map (g : β → γ) (f : α → β) : ∀ t : Tree α, map g (map f t) = map (g ∘ f) t
  | .leaf _ => rfl
  | .call callee arguments => by
    rw [map, map, map, map_map g f callee, mapList_mapList g f arguments]

/-- Leaves of several trees can be replaced in two steps or in one. -/
theorem mapList_mapList (g : β → γ) (f : α → β) :
    ∀ trees : List (Tree α), mapList g (mapList f trees) = mapList (g ∘ f) trees
  | [] => rfl
  | tree :: trees => by
    rw [mapList, mapList, mapList, map_map g f tree, mapList_mapList g f trees]

end

end Tree

/-- An error at another token. -/
def ParseError.rename (f : Token → Token) (error : ParseError) : ParseError :=
  ⟨error.expected, f error.found⟩

namespace Words

/-- A list of other tokens. -/
def rename {last : Token} (f : Token → Token) (w : Words last) : Words (f last) :=
  ⟨w.list.map f⟩

/-! ## Computations on renamed tokens -/

section

variable {last : Token} {f : Token → Token} {α β γ δ : Type}

/-- A result over other tokens, with the value that stands for the old one. -/
def renamed (f : Token → Token) (g : α → β) :
    EStateM.Result ParseError (Words last) α → EStateM.Result ParseError (Words (f last)) β
  | .ok a w => .ok (g a) (w.rename f)
  | .error error w => .error (error.rename f) (w.rename f)

/-- On renamed tokens the second computation gives the renamed result of the first. -/
def Renames (f : Token → Token) (g : α → β) (p : Parser (Words last) α)
    (q : Parser (Words (f last)) β) : Prop :=
  ∀ w, q (w.rename f) = renamed f g (p w)

namespace Renames

/-- A value and the one that stands for it. -/
theorem pure {g : α → β} (a : α) :
    Renames f g (pure a : Parser (Words last) α) (pure (g a)) := fun _ => rfl

/-- An error at a token and at the one that stands for it. -/
theorem throw {g : α → β} (error : ParseError) :
    Renames f g (throw error : Parser (Words last) α) (throw (error.rename f)) := fun _ => rfl

/-- One computation after the other. -/
theorem bind {g : α → β} {h : γ → δ} {p : Parser (Words last) α} {q : Parser (Words (f last)) β}
    {k : α → Parser (Words last) γ} {k' : β → Parser (Words (f last)) δ} (hp : Renames f g p q)
    (hk : ∀ a, Renames f h (k a) (k' (g a))) : Renames f h (p >>= k) (q >>= k') := by
  intro w
  rw [Parser.bind_apply, Parser.bind_apply, hp w]
  cases p w with
  | ok a w' => exact hk a w'
  | error error w' => rfl

/-- A computation whose value is not used. -/
theorem ignore {g : α → β} {h : γ → δ} {p : Parser (Words last) α}
    {q : Parser (Words (f last)) β} {k : Unit → Parser (Words last) γ}
    {k' : Unit → Parser (Words (f last)) δ} (hp : Renames f g p q)
    (hk : Renames f h (k ()) (k' ())) : Renames f h (discard p >>= k) (discard q >>= k') := by
  rw [Parser.discard_bind, Parser.discard_bind]
  exact hp.bind fun _ => hk

/-- A computation whose value is dropped. -/
theorem discard {g : α → β} {p : Parser (Words last) α} {q : Parser (Words (f last)) β}
    (hp : Renames f g p q) :
    Renames f id (Functor.discard p : Parser (Words last) Unit) (Functor.discard q) := by
  intro w
  show EStateM.map (Function.const β ()) q (w.rename f) =
    renamed f id (EStateM.map (Function.const α ()) p w)
  unfold EStateM.map
  rw [hp w]
  cases p w <;> rfl

/-- A choice that both computations make alike. -/
theorem ite {g : α → β} {c : Prop} [Decidable c] {p p' : Parser (Words last) α}
    {q q' : Parser (Words (f last)) β} (h : Renames f g p q) (h' : Renames f g p' q') :
    Renames f g (if c then p else p') (if c then q else q') := by
  split
  · exact h
  · exact h'

/-- An attempt. -/
theorem attempt? {g : α → β} {p : Parser (Words last) α} {q : Parser (Words (f last)) β}
    (hp : Renames f g p q) :
    Renames f (Option.map g) (Parser.attempt? p) (Parser.attempt? q) := by
  intro w
  unfold Parser.attempt?
  rw [hp w]
  cases p w <;> rfl

/-- A trial. -/
theorem succeeds {g : α → β} {p : Parser (Words last) α} {q : Parser (Words (f last)) β}
    (hp : Renames f g p q) : Renames f id (Parser.succeeds p) (Parser.succeeds q) := by
  intro w
  unfold Parser.succeeds
  rw [hp w]
  cases p w <;> rfl

/-- The next token of the renamed list stands for the next token. -/
theorem peek : Renames f f (Parser.peek : Parser (Words last) Token) Parser.peek := by
  rintro ⟨list⟩
  cases list <;> rfl

/-- The next token of the renamed list is consumed with the next token. -/
theorem advance : Renames f f (Parser.advance : Parser (Words last) Token) Parser.advance := by
  rintro ⟨list⟩
  cases list <;> rfl

end Renames

end

/-! ## The rules -/

/-- The rules of one record on renamed tokens do what those of another do. -/
structure RulesRename {last : Token} (f : Token → Token) (deeper : Rules (Words last))
    (deeper' : Rules (Words (f last))) : Prop where
  factor : Renames f (Tree.map f) deeper.factor deeper'.factor
  term : Renames f (Tree.map f) deeper.term deeper'.term
  expression : Renames f (Tree.map f) deeper.expression deeper'.expression
  calls : ∀ callee, Renames f (Tree.map f) (deeper.calls callee) (deeper'.calls (callee.map f))
  moreArguments : Renames f (Tree.mapList f) deeper.moreArguments deeper'.moreArguments
  moreFactors : ∀ left,
    Renames f (Tree.map f) (deeper.moreFactors left) (deeper'.moreFactors (left.map f))
  moreTerms : ∀ left,
    Renames f (Tree.map f) (deeper.moreTerms left) (deeper'.moreTerms (left.map f))

section

variable {last : Token} {f : Token → Token} (hf : ∀ token, (f token).kind = token.kind)
include hf

/-- A token of a kind is expected of both lists. -/
theorem expect_renames (kind : TokenKind) :
    Renames f f (Parser.expect kind : Parser (Words last) Token) (Parser.expect kind) := by
  refine .bind .advance fun token => ?_
  rw [hf]
  exact .ite (.pure token) (.throw ⟨[kind], token⟩)

variable {deeper : Rules (Words last)} {deeper' : Rules (Words (f last))}
  (hdeeper : RulesRename f deeper deeper')
include hdeeper

/-- A comma is one in both lists, and behind it the arguments are the same ones. -/
theorem moreArguments_renames :
    Renames f (Tree.mapList f) (Parser.moreArguments deeper) (Parser.moreArguments deeper') := by
  refine .bind .peek fun token => ?_
  rw [hf]
  refine .ite (.ignore .advance (.bind hdeeper.expression fun argument => ?_)) (.pure [])
  exact .bind hdeeper.moreArguments fun more => .pure (argument :: more)

/-- There is a first argument in both lists or in neither. -/
theorem arguments_renames :
    Renames f (Tree.mapList f) (Parser.arguments deeper) (Parser.arguments deeper') := by
  refine .bind (.attempt? hdeeper.expression) fun first => ?_
  cases first with
  | none => exact .pure []
  | some first => exact .bind (moreArguments_renames hf hdeeper) fun more => .pure (first :: more)

/-- The callee is called in both lists or in neither, with the same arguments. -/
theorem calls_renames (callee : SyntaxTree) :
    Renames f (Tree.map f) (Parser.calls deeper callee) (Parser.calls deeper' (callee.map f)) := by
  refine .bind .peek fun token => ?_
  rw [hf]
  refine .ite (.ignore .advance (.bind (arguments_renames hf hdeeper) fun arguments => ?_))
    (.pure callee)
  exact .ignore (expect_renames hf _) (hdeeper.calls (.call callee arguments))

/-- An atom starts with tokens of the same kind in both lists. -/
theorem atom_renames : Renames f (Tree.map f) (Parser.atom deeper) (Parser.atom deeper') := by
  refine .bind .advance fun token => ?_
  rw [hf]
  refine .ite (calls_renames hf hdeeper (.leaf token)) (.ite ?_ (.throw ⟨Parser.atomKinds, token⟩))
  refine .bind hdeeper.expression fun tree => ?_
  exact .ignore (expect_renames hf _) (calls_renames hf hdeeper tree)

/-- A caret comes next in both lists or in neither. -/
theorem primary_renames :
    Renames f (Tree.map f) (Parser.primary deeper) (Parser.primary deeper') := by
  refine .bind (atom_renames hf hdeeper) fun base => .bind .peek fun operator => ?_
  rw [hf]
  refine .ite (.ignore .advance (.bind hdeeper.factor fun exponent => ?_)) (.pure base)
  exact .pure (Tree.call (.leaf operator) [base, exponent])

/-- A sign is an operand in both lists or in neither: the trial has no result but whether it
succeeds. -/
theorem signIsOperand_renames :
    Renames f id (Parser.signIsOperand deeper) (Parser.signIsOperand deeper') := by
  have hfactors : Renames f id
      (do discard deeper.factor; discard deeper.factor)
      (do discard deeper'.factor; discard deeper'.factor) :=
    .ignore hdeeper.factor (.discard hdeeper.factor)
  refine Renames.succeeds (g := id) (.ignore .advance (.bind .peek fun operator => ?_))
  rw [hf]
  exact .ite hfactors (.throw ⟨[], operator⟩)

/-- A sign is looked past in both lists, with the same outcome of both attempts. -/
theorem factor_renames : Renames f (Tree.map f) (Parser.factor deeper) (Parser.factor deeper') := by
  have hprimary := primary_renames hf hdeeper
  refine .bind .peek fun sign => ?_
  rw [hf]
  refine .ite (.bind (signIsOperand_renames hf hdeeper) fun operand => ?_) hprimary
  refine .ite hprimary (.bind (.attempt? (.ignore .advance hdeeper.factor)) fun operand => ?_)
  cases operand with
  | some operand => exact .pure (Tree.call (.leaf sign) [operand])
  | none => exact hprimary

/-- A term goes on with the same operators in both lists. -/
theorem moreFactors_renames (left : SyntaxTree) :
    Renames f (Tree.map f) (Parser.moreFactors deeper left)
      (Parser.moreFactors deeper' (left.map f)) := by
  refine .bind .peek fun operator => ?_
  rw [hf]
  refine .ite (.ignore .advance (.bind hdeeper.factor fun right => ?_)) (.pure left)
  exact hdeeper.moreFactors (.call (.leaf operator) [left, right])

/-- A term is the same one in both lists. -/
theorem term_renames : Renames f (Tree.map f) (Parser.term deeper) (Parser.term deeper') :=
  .bind (factor_renames hf hdeeper) (moreFactors_renames hf hdeeper)

/-- An expression goes on with the same signs in both lists. -/
theorem moreTerms_renames (left : SyntaxTree) :
    Renames f (Tree.map f) (Parser.moreTerms deeper left)
      (Parser.moreTerms deeper' (left.map f)) := by
  refine .bind .peek fun operator => ?_
  rw [hf]
  refine .ite (.ignore .advance (.bind hdeeper.term fun right => ?_)) (.pure left)
  exact hdeeper.moreTerms (.call (.leaf operator) [left, right])

/-- An expression is the same one in both lists. -/
theorem expression_renames :
    Renames f (Tree.map f) (Parser.expression deeper) (Parser.expression deeper') :=
  .bind (term_renames hf hdeeper) (moreTerms_renames hf hdeeper)

/-- If the rules of one level do the same on renamed tokens, so do those one level up. -/
theorem nextRules_rename : RulesRename f (Parser.nextRules deeper) (Parser.nextRules deeper') where
  factor := factor_renames hf hdeeper
  term := term_renames hf hdeeper
  expression := expression_renames hf hdeeper
  calls := calls_renames hf hdeeper
  moreArguments := moreArguments_renames hf hdeeper
  moreFactors := moreFactors_renames hf hdeeper
  moreTerms := moreTerms_renames hf hdeeper

omit hdeeper

/-- The rules of every level do the same on renamed tokens. -/
theorem parserRules_rename (n : Nat) :
    RulesRename f (Parser.rules n : Rules (Words last)) (Parser.rules n) := by
  induction n with
  | zero =>
    have hfail : ∀ {α β : Type} (g : α → β),
        Renames f g (Parser.fail : Parser (Words last) α) Parser.fail := fun _ =>
      .bind .peek fun token => .throw ⟨[], token⟩
    exact ⟨hfail _, hfail _, hfail _, fun _ => hfail _, hfail _, fun _ => hfail _, fun _ => hfail _⟩
  | succ n ih => exact nextRules_rename hf ih

/-- The rules without levels do the same on renamed tokens. -/
theorem rules_rename : RulesRename f (rules : Rules (Words last)) rules := by
  -- A renamed list has as many tokens, so it is run with as many levels.
  have hsize : ∀ {α β : Type} {g : α → β} {p : Nat → Parser (Words last) α}
      {q : Nat → Parser (Words (f last)) β}, (∀ n, Renames f g (p n) (q n)) →
      Renames f g (atSize p) (atSize q) := by
    intro α β g p q h w
    have hlength : (w.rename f).list.length = w.list.length := List.length_map f
    rw [atSize, atSize, hlength]
    exact h _ w
  exact {
    factor := hsize fun n => (parserRules_rename hf n).factor
    term := hsize fun n => (parserRules_rename hf n).term
    expression := hsize fun n => (parserRules_rename hf n).expression
    calls := fun callee => hsize fun n => (parserRules_rename hf n).calls callee
    moreArguments := hsize fun n => (parserRules_rename hf n).moreArguments
    moreFactors := fun left => hsize fun n => (parserRules_rename hf n).moreFactors left
    moreTerms := fun left => hsize fun n => (parserRules_rename hf n).moreTerms left }

/-- The rule for a production does the same on renamed tokens. -/
theorem rule_rename (p : Production) :
    Renames f (Tree.map f) (rule p : Parser (Words last) SyntaxTree) (rule p) := by
  have hrules : RulesRename f (rules : Rules (Words last)) rules := rules_rename hf
  cases p with
  | atom => exact atom_renames hf hrules
  | primary => exact primary_renames hf hrules
  | factor => exact hrules.factor
  | term => exact hrules.term
  | expression => exact hrules.expression
  | complete =>
    refine .bind hrules.expression fun tree => ?_
    exact .ignore (expect_renames hf _) (.pure tree)

end

/-! ## Tokens without their places -/

/-- If tokens read as an expression, the same tokens at other places read as the same one. -/
theorem reads_of_unplaced {ts us : List Token}
    (hsame : us.map Token.unplaced = ts.map Token.unplaced)
    (hts : ∀ token ∈ ts, token.kind ≠ .endOfFile) {t : SyntaxTree}
    (h : Reads .expression ts [] t) :
    ∃ u, Reads .expression us [] u ∧ u.map Atom.ofToken = t.map Atom.ofToken := by
  have hus : ∀ token ∈ us, token.kind ≠ .endOfFile := by
    intro token htoken
    have hmem : token.unplaced ∈ ts.map Token.unplaced :=
      hsame ▸ List.mem_map_of_mem htoken
    obtain ⟨original, horiginal, heq⟩ := List.mem_map.mp hmem
    rw [← token.kind_unplaced, ← heq]
    exact hts original horiginal
  have hlast : (Cursor.endToken []).kind = .endOfFile := rfl
  have hends : Ends .expression [] := not_continues_of_closes (.inl rfl)
  have hrule : rule .expression (⟨ts⟩ : Words (Cursor.endToken [])) = .ok t ⟨[]⟩ :=
    (rule_eq_ok_iff hlast hts .expression t).mpr ⟨ts, (List.append_nil ts).symm, hends, h⟩
  -- Without their places both lists are the same, and so is what the rule does on them.
  have hfirst := rule_rename Token.kind_unplaced .expression
    (⟨ts⟩ : Words (Cursor.endToken []))
  have hsecond := rule_rename Token.kind_unplaced .expression
    (⟨us⟩ : Words (Cursor.endToken []))
  have hwords : (⟨us⟩ : Words (Cursor.endToken [])).rename Token.unplaced =
      (⟨ts⟩ : Words (Cursor.endToken [])).rename Token.unplaced := congrArg Words.mk hsame
  rw [hwords, hfirst, hrule] at hsecond
  generalize hresult : rule .expression (⟨us⟩ : Words (Cursor.endToken [])) = result at hsecond
  cases result with
  | error error w => cases hsecond
  | ok u w =>
    injection hsecond with htree hrest
    obtain rfl : w = ⟨[]⟩ := by
      have hnil : w.list.map Token.unplaced = [] := (congrArg Words.list hrest).symm
      exact congrArg Words.mk (List.map_eq_nil_iff.mp hnil)
    obtain ⟨vs, hvs, -, hreads⟩ := (rule_eq_ok_iff hlast hus .expression u).mp hresult
    rw [List.append_nil] at hvs
    refine ⟨u, hvs ▸ hreads, ?_⟩
    have hatoms := congrArg (Tree.map Atom.ofToken) htree
    rw [Tree.map_map, Tree.map_map] at hatoms
    exact hatoms.symm

end Words

/-! ## Whole texts -/

/-- What a computation returns, wherever it stops. -/
def Parser.outcome {σ α : Type} : EStateM.Result ParseError σ α → Except ParseError α
  | .ok a _ => .ok a
  | .error error _ => .error error

/-- A text is parsed as the rule for complete expressions does it on the tokens of the text. -/
theorem parseTokens_eq {source : String} {all : List Token}
    (hlex : lex source = all ++ [Cursor.endToken source.toList])
    (hall : ∀ token ∈ all, token.kind ≠ .endOfFile) :
    parseTokens source = Parser.outcome
      (Words.rule .complete (⟨all⟩ : Words (Cursor.endToken source.toList))) := by
  have hagrees := (Lookahead.tracks_ofString hlex).read_agrees rfl hall .complete
  unfold parseTokens
  generalize Parser.read .complete (Lookahead.ofString source) = result at hagrees ⊢
  generalize Words.rule .complete _ = result' at hagrees ⊢
  cases hagrees <;> rfl

/-- Apart from the places in its errors, the parser on a text does what the rule for complete
expressions does on the tokens without their places. -/
theorem parse_unplaced {source : String} {all : List Token}
    (hlex : lex source = all ++ [Cursor.endToken source.toList])
    (hall : ∀ token ∈ all, token.kind ≠ .endOfFile) :
    (parse source).mapError (ParseError.rename Token.unplaced) =
      (Parser.outcome (Words.rule .complete
        (⟨all.map Token.unplaced⟩ : Words (Cursor.endToken [])))).map (Tree.map Atom.ofToken) := by
  have hrename := Words.rule_rename Token.kind_unplaced .complete
    (⟨all⟩ : Words (Cursor.endToken source.toList))
  have hwords : Words.rule .complete (⟨all.map Token.unplaced⟩ : Words (Cursor.endToken [])) =
      Words.renamed Token.unplaced (Tree.map Token.unplaced)
        (Words.rule .complete (⟨all⟩ : Words (Cursor.endToken source.toList))) := hrename
  rw [hwords, parse, parseTokens_eq hlex hall]
  cases Words.rule .complete (⟨all⟩ : Words (Cursor.endToken source.toList)) with
  | ok t w =>
    show Except.ok (t.map Atom.ofToken) = .ok ((t.map Token.unplaced).map Atom.ofToken)
    rw [Tree.map_map]
    rfl
  | error error w => rfl

/-- Texts with the same tokens, apart from the places of these, are parsed to the same expression,
or fail alike at tokens that are the same apart from their places. -/
theorem parse_eq_of_unplaced {s s' : String}
    (h : (lex s').map Token.unplaced = (lex s).map Token.unplaced) :
    (parse s').mapError (ParseError.rename Token.unplaced) =
      (parse s).mapError (ParseError.rename Token.unplaced) := by
  obtain ⟨all, hlex, hall⟩ := lex_eq_append s
  obtain ⟨all', hlex', hall'⟩ := lex_eq_append s'
  have hsame : all'.map Token.unplaced = all.map Token.unplaced := by
    rw [hlex, hlex', List.map_append, List.map_append] at h
    exact (List.append_inj' h rfl).1
  rw [parse_unplaced hlex hall, parse_unplaced hlex' hall', hsame]

end LineCalc
