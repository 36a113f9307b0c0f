import LineCalc.Tree

/-!
# Parsing

A recursive-descent parser for

* atom = (number | identifier | operator | `(` expression `)`) call*
* call = `(` [expression (`,` expression)*] `)`
* primary = atom [`^` factor]
* factor = (`+` | `-`) factor | primary
* term = factor ((`*` | `/` | `%`) factor)*
* expression = term ((`+` | `-`) term)*

An operator is also an atom, so a sign can be a prefix or an operand. It is an operand if what
follows reads as an operator applied to it and a factor after that, or if no factor follows it.

The rules are written over any source of tokens with one token of lookahead. A rule refers to
another through a record that it uses only after it has consumed a token, and the record is built
up level by level: as many levels as there are tokens are enough.
-/

namespace LineCalc

/-- No rule accepts the token found. -/
structure ParseError where
  /-- The kinds that would have been accepted. -/
  expected : List TokenKind
  /-- The token that stands there. -/
  found : Token
deriving DecidableEq, Inhabited

namespace ParseError

/-- The text of an error. -/
def message (error : ParseError) : String :=
  if error.expected.isEmpty then "found " ++ error.found.display
  else "expected a token of type " ++ " or ".intercalate (error.expected.map TokenKind.name) ++
    " but found " ++ error.found.display

end ParseError

/-- Where tokens are read from. After the last token every one is `endOfFile`. -/
class TokenSource (σ : Type) where
  /-- The next token, which is not consumed. -/
  peek : σ → Token × σ
  /-- The next token, which is consumed. -/
  advance : σ → Token × σ
  /-- At most so many tokens come before `endOfFile`. -/
  size : σ → Nat

/-- A computation that consumes tokens; it stays where it failed. -/
abbrev Parser (σ : Type) := EStateM ParseError σ

namespace Parser

variable {σ α : Type} [TokenSource σ]

/-! ## Steps -/

/-- The next token, which is not consumed. -/
def peek : Parser σ Token := fun s =>
  let (token, s) := TokenSource.peek s
  .ok token s

/-- The next token, which is consumed. -/
def advance : Parser σ Token := fun s =>
  let (token, s) := TokenSource.advance s
  .ok token s

/-- Consumes the next token, which has to be of the given kind. -/
def expect (kind : TokenKind) : Parser σ Token := do
  let token ← advance
  if token.kind = kind then return token
  else throw ⟨[kind], token⟩

/-- The result of a parser that succeeds; one that fails consumes nothing. -/
def attempt? (p : Parser σ α) : Parser σ (Option α) := fun s =>
  match p s with
  | .ok a s' => .ok (some a) s'
  | .error _ _ => .ok none s

/-- Whether a parser would succeed; nothing is consumed. -/
def succeeds (p : Parser σ α) : Parser σ Bool := fun s =>
  match p s with
  | .ok _ _ => .ok true s
  | .error _ _ => .ok false s

/-! ## Rules -/

/-- The rules that are used after a token has been consumed. -/
structure Rules (σ : Type) where
  /-- A factor. -/
  factor : Parser σ SyntaxTree
  /-- A term. -/
  term : Parser σ SyntaxTree
  /-- An expression. -/
  expression : Parser σ SyntaxTree
  /-- The calls that follow a callee. -/
  calls : SyntaxTree → Parser σ SyntaxTree
  /-- The arguments after the first. -/
  moreArguments : Parser σ (List SyntaxTree)
  /-- The operators and factors that follow the first factor of a term. -/
  moreFactors : SyntaxTree → Parser σ SyntaxTree
  /-- The signs and terms that follow the first term of an expression. -/
  moreTerms : SyntaxTree → Parser σ SyntaxTree

/-- The kinds that start an atom. -/
def atomKinds : List TokenKind :=
  [.number, .identifier, .plus, .minus, .star, .slash, .percent, .caret, .leftParenthesis]

section Rules

variable (deeper : Rules σ)

/-- The arguments after the first. -/
def moreArguments : Parser σ (List SyntaxTree) := do
  if (← peek).kind = .comma then
    discard advance
    let argument ← deeper.expression
    return argument :: (← deeper.moreArguments)
  else return []

/-- The arguments of a call. If no expression follows, there are none. -/
def arguments : Parser σ (List SyntaxTree) := do
  match ← attempt? deeper.expression with
  | none => return []
  | some first => return first :: (← moreArguments deeper)

/-- The calls that follow a callee, each of them the callee of the next. -/
def calls (callee : SyntaxTree) : Parser σ SyntaxTree := do
  if (← peek).kind = .leftParenthesis then
    discard advance
    let arguments ← arguments deeper
    discard <| expect .rightParenthesis
    deeper.calls (.call callee arguments)
  else return callee

/-- An atom and the calls that follow it. -/
def atom : Parser σ SyntaxTree := do
  let token ← advance
  if token.kind = .number ∨ token.kind = .identifier ∨ token.kind.isOperator then
    calls deeper (.leaf token)
  else if token.kind = .leftParenthesis then
    let tree ← deeper.expression
    discard <| expect .rightParenthesis
    calls deeper tree
  else throw ⟨atomKinds, token⟩

/-- An atom, or its power by a factor. -/
def primary : Parser σ SyntaxTree := do
  let base ← atom deeper
  let operator ← peek
  if operator.kind = .caret then
    discard advance
    return .call (.leaf operator) [base, ← deeper.factor]
  else return base

/-- Whether the sign that comes next is an operand: an operator other than a sign follows it, and
a factor reads from that operator on, and another one after it. -/
def signIsOperand : Parser σ Bool :=
  succeeds do
    discard advance
    let operator ← peek
    if operator.kind.joinsFactors ∨ operator.kind = .caret then
      discard deeper.factor
      discard deeper.factor
    else throw ⟨[], operator⟩

/-- A primary, or a sign and the factor that it applies to. -/
def factor : Parser σ SyntaxTree := do
  let sign ← peek
  if sign.kind.isSign then
    if ← signIsOperand deeper then primary deeper
    else
      match ← attempt? (do discard advance; deeper.factor) with
      | some operand => return .call (.leaf sign) [operand]
      | none => primary deeper
  else primary deeper

/-- The operators and factors that follow the first factor of a term, grouped from the left. -/
def moreFactors (left : SyntaxTree) : Parser σ SyntaxTree := do
  let operator ← peek
  if operator.kind.joinsFactors then
    discard advance
    let right ← deeper.factor
    deeper.moreFactors (.call (.leaf operator) [left, right])
  else return left

/-- Factors with operators between them. -/
def term : Parser σ SyntaxTree := do
  moreFactors deeper (← factor deeper)

/-- The signs and terms that follow the first term of an expression, grouped from the left. -/
def moreTerms (left : SyntaxTree) : Parser σ SyntaxTree := do
  let operator ← peek
  if operator.kind.isSign then
    discard advance
    let right ← deeper.term
    deeper.moreTerms (.call (.leaf operator) [left, right])
  else return left

/-- Terms with signs between them. -/
def expression : Parser σ SyntaxTree := do
  moreTerms deeper (← term deeper)

/-- The rules one level up. -/
def nextRules : Rules σ where
  factor := factor deeper
  term := term deeper
  expression := expression deeper
  calls := calls deeper
  moreArguments := moreArguments deeper
  moreFactors := moreFactors deeper
  moreTerms := moreTerms deeper

end Rules

/-- Fails at the next token. -/
def fail : Parser σ α := do
  throw ⟨[], ← peek⟩

/-- The rules for sources with at most so many tokens left. -/
def rules : Nat → Rules σ
  | 0 => ⟨fail, fail, fail, fun _ => fail, fail, fun _ => fail, fun _ => fail⟩
  | count + 1 => nextRules (rules count)

/-! ## Whole expressions -/

/-- The rules that can be asked for. -/
inductive Production where
  | atom
  | primary
  | factor
  | term
  | expression
  | complete
deriving DecidableEq

/-- Reads what a rule derives. A complete expression is one with nothing after it. -/
def read (production : Production) : Parser σ SyntaxTree := do
  let deeper := rules (TokenSource.size (← get))
  match production with
  | .atom => atom deeper
  | .primary => primary deeper
  | .factor => factor deeper
  | .term => term deeper
  | .expression => expression deeper
  | .complete =>
    let tree ← expression deeper
    discard <| expect .endOfFile
    return tree

end Parser

end LineCalc
