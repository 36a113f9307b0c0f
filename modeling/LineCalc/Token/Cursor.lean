import LineCalc.Text.Basic
import LineCalc.Text.Numeric
import LineCalc.Text.Quoted
import LineCalc.Token
import LineCalc.Token.Literal

/-!
# Reading tokens

A cursor is a place in a source text. Reading a token skips blanks and takes the longest token
that starts after them; at the end of the text the token is `endOfFile`, as often as it is read.
Characters that start no token are taken together, up to a blank or the next start of a token.
-/

namespace LineCalc

/-! ## One token -/

/-- Whether a blank or a token of a known kind starts here. The underscore starts identifiers, but
does not end a run of unknown characters. -/
def endsUnknown (c : Char) (cs : List Char) : Bool :=
  Text.isBlank c || Literal.starts (c :: cs) || Text.isLetter c || isSymbol c

/-- The characters before the next blank or start of a token of a known kind. -/
def unknownRun : List Char → List Char
  | [] => []
  | c :: cs => if endsUnknown c cs then [] else c :: unknownRun cs

/-- The kind and the characters of the token that starts at a character that is not blank. -/
def scan (c : Char) (cs : List Char) : TokenKind × List Char :=
  if Literal.starts (c :: cs) then (.number, (Literal.read (c :: cs)).1.chars)
  else if Text.isLetter c || c == '_' then (.identifier, c :: cs.takeWhile Text.isWordChar)
  else
    match TokenKind.ofSymbol? c with
    | some kind => (kind, [c])
    | none => (.unknown, c :: unknownRun cs)

/-! ## Cursors -/

/-- A place in a source text. -/
structure Cursor where
  /-- The whole text. -/
  source : List Char
  /-- How many characters come before the place. -/
  pos : Nat
deriving DecidableEq, Inhabited

namespace Cursor

/-- The start of a text. -/
def ofString (source : String) : Cursor :=
  ⟨source.toList, 0⟩

/-- The characters after the place. -/
def rest (cursor : Cursor) : List Char :=
  cursor.source.drop cursor.pos

/-- The end of the text. -/
def atEnd (cursor : Cursor) : Cursor :=
  { cursor with pos := cursor.source.length }

/-- The next token and the place after it. -/
def next (cursor : Cursor) : Token × Cursor :=
  match cursor.rest.dropWhile Text.isBlank with
  | [] => (⟨.endOfFile, "", cursor.source.length⟩, cursor.atEnd)
  | c :: cs =>
    let start := cursor.pos + (cursor.rest.takeWhile Text.isBlank).length
    let (kind, chars) := scan c cs
    (⟨kind, String.ofList chars, start⟩, { cursor with pos := start + chars.length })

/-- The next tokens, up to and including the first `endOfFile`, and at most `count` of them. -/
def tokensUpTo : Nat → Cursor → List Token
  | 0, _ => []
  | count + 1, cursor =>
    let (token, after) := cursor.next
    if token.kind = .endOfFile then [token] else token :: tokensUpTo count after

/-- All tokens after the place, up to and including the first `endOfFile`: every other token takes
at least one character. -/
def tokens (cursor : Cursor) : List Token :=
  cursor.tokensUpTo (cursor.rest.length + 1)

/-- A cursor as it is shown: the place and the text after it. -/
def display (cursor : Cursor) : String :=
  "Tokens(pos=" ++ toString cursor.pos ++ ", rest=" ++
    Text.quoted (String.ofList cursor.rest) ++ ")"

end Cursor

/-- The tokens of a text, the last of them `endOfFile`. -/
def lex (source : String) : List Token :=
  (Cursor.ofString source).tokens

/-! ## Tokens take characters of the text -/

/-- A run of unknown characters is the start of its text. -/
theorem unknownRun_isPrefix (cs : List Char) : unknownRun cs <+: cs := by
  induction cs with
  | nil => simp [unknownRun]
  | cons c cs ih =>
    rw [unknownRun]
    split
    · exact List.nil_prefix
    · exact (List.prefix_cons_inj c).mpr ih

/-- The characters of a token are the start of its text. -/
theorem scan_isPrefix (c : Char) (cs : List Char) : (scan c cs).2 <+: c :: cs := by
  unfold scan
  split
  · exact ⟨_, Literal.read_append _⟩
  · split
    · exact (List.prefix_cons_inj c).mpr ( List.takeWhile_prefix _)
    · split
      · exact ⟨cs, rfl⟩
      · exact (List.prefix_cons_inj c).mpr (unknownRun_isPrefix cs)

/-- A token that starts at a character has at least one. -/
theorem scan_ne_nil (c : Char) (cs : List Char) : (scan c cs).2 ≠ [] := by
  unfold scan
  split
  · next h => exact Literal.chars_read_ne_nil h
  · split
    · simp
    · split <;> simp

end LineCalc
