import LineCalc.Parser
import LineCalc.Token.Cursor

/-!
# A cursor with one token of lookahead
-/

namespace LineCalc

/-- A cursor and the token before it, if that has been looked at and not consumed. -/
structure Lookahead where
  /-- The place up to which tokens have been read. -/
  cursor : Cursor
  /-- The last token read, unless it has been consumed. -/
  buffer : Option Token
deriving DecidableEq, Inhabited

namespace Lookahead

/-- The start of a text. -/
def ofString (source : String) : Lookahead :=
  ⟨Cursor.ofString source, none⟩

/-- The next token, which stays in the buffer. -/
def peek (s : Lookahead) : Token × Lookahead :=
  match s.buffer with
  | some token => (token, s)
  | none =>
    let (token, cursor) := s.cursor.next
    (token, ⟨cursor, some token⟩)

/-- The next token, which leaves the buffer. -/
def advance (s : Lookahead) : Token × Lookahead :=
  match s.buffer with
  | some token => (token, { s with buffer := none })
  | none =>
    let (token, cursor) := s.cursor.next
    (token, ⟨cursor, none⟩)

/-- Every token but the one in the buffer takes at least one of the characters left. -/
instance : TokenSource Lookahead where
  peek := peek
  advance := advance
  size s := s.cursor.rest.length + 1

end Lookahead

/-- The tree of a source text, or why it is no expression. -/
def parseTokens (source : String) : Except ParseError SyntaxTree :=
  match Parser.read .complete (Lookahead.ofString source) with
  | .ok tree _ => .ok tree
  | .error error _ => .error error

/-- The expression that a source text spells, or why it is none. -/
def parse (source : String) : Except ParseError Expr :=
  (parseTokens source).map (Tree.map Atom.ofToken)

end LineCalc
