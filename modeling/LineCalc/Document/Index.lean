import LineCalc.Parser.Lookahead
import LineCalc.Text.Basic

/-!
# Index of a document

Every line of a document that is not blank is an expression of its own. The index says where its
lines are no expressions, which identifiers they use, and which of these are not known. Nothing
is evaluated.
-/

namespace LineCalc.Document

/-- A place where a line is no expression: the token found there, or one column for the end of
the line. -/
structure Problem where
  /-- The line, counted from zero. -/
  line : Nat
  /-- The first column, counted from zero. -/
  column : Nat
  /-- How many columns. -/
  length : Nat
  /-- What is wrong. -/
  message : String
deriving DecidableEq

/-- A use of an identifier. -/
structure Use where
  /-- The identifier. -/
  name : String
  /-- The line, counted from zero. -/
  line : Nat
  /-- The first column, counted from zero. -/
  column : Nat
deriving DecidableEq

/-- What a document holds, in order. -/
structure Index where
  /-- Where lines are no expressions. -/
  problems : List Problem
  /-- The identifiers used. -/
  uses : List Use
  /-- Those that are not known. -/
  unbound : List Use
deriving DecidableEq

/-- Names in ascending order of code points, each once. -/
def sortNames (names : List String) : List String :=
  names.eraseDups.mergeSort fun a b => !decide (b < a)

namespace Index

/-- The index of no lines. -/
def empty : Index :=
  ⟨[], [], []⟩

/-- The index of lines and of those after them. -/
def append (first second : Index) : Index :=
  ⟨first.problems ++ second.problems, first.uses ++ second.uses, first.unbound ++ second.unbound⟩

/-- The uses of identifiers on a line. -/
def lineUses (line : Nat) (text : String) : List Use :=
  (lex text).filterMap fun token =>
    if token.kind = .identifier then some ⟨token.lexeme, line, token.offset⟩ else none

/-- The problem of a line, if it is no expression. -/
def lineProblems (line : Nat) (text : String) : List Problem :=
  match parseTokens text with
  | .ok _ => []
  | .error error =>
    [⟨line, error.found.offset, max error.found.lexeme.length 1, error.message⟩]

/-- The index of a line; a blank one holds nothing. -/
def ofLine (known : List String) (line : Nat) (chars : List Char) : Index :=
  if chars.all Text.isBlank then empty
  else
    let text := String.ofList chars
    let uses := lineUses line text
    ⟨lineProblems line text, uses, uses.filter fun use => use.name ∉ known⟩

/-- The index of lines that are counted from a given number. -/
def ofLines (known : List String) : Nat → List (List Char) → Index
  | _, [] => empty
  | line, chars :: rest => (ofLine known line chars).append (ofLines known (line + 1) rest)

/-- The index of a text. -/
def ofText (known : List String) (text : String) : Index :=
  ofLines known 0 (Text.lines text.toList)

/-- The names that are used, sorted. -/
def names (index : Index) : List String :=
  sortNames (index.uses.map Use.name)

/-! ## What is on a line -/

/-- The uses on a line are those of its tokens that are names. -/
theorem mem_lineUses_iff {line : Nat} {text : String} {use : Use} : use ∈ lineUses line text ↔
    ∃ token ∈ lex text, token.kind = .identifier ∧ use = ⟨token.lexeme, line, token.offset⟩ := by
  unfold lineUses
  rw [List.mem_filterMap]
  refine exists_congr fun token => and_congr_right fun _ => ?_
  split
  · next hname => simp [hname, eq_comm]
  · next hname => simp [hname]

/-- The problem of a line is what the parser fails with. -/
theorem mem_lineProblems_iff {line : Nat} {text : String} {problem : Problem} :
    problem ∈ lineProblems line text ↔ ∃ error, parseTokens text = .error error ∧
      problem = ⟨line, error.found.offset, max error.found.lexeme.length 1, error.message⟩ := by
  unfold lineProblems
  cases parseTokens text <;> simp

/-- The uses on a line that are not bound are those of names that are not known. -/
theorem unbound_ofLine (known : List String) (line : Nat) (chars : List Char) :
    (ofLine known line chars).unbound =
      (ofLine known line chars).uses.filter fun use => use.name ∉ known := by
  unfold ofLine
  split <;> rfl

end Index

end LineCalc.Document
