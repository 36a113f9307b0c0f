import LineCalc.Text.Basic
import LineCalc.Text.Numeric
import LineCalc.Token

/-!
# The word at a position

On a line, the word at a column is the symbol that stands there, or else the characters of words
around it. A column may be at most the length of its line.
-/

namespace LineCalc.Document

/-- Why there is no answer for a position. -/
inductive PositionError where
  | columnOutOfRange
deriving DecidableEq

/-- The text of an error. -/
def PositionError.message : PositionError → String
  | .columnOutOfRange => "string index out of range"

/-- The word at a column of a line. -/
def wordInLine (row : List Char) (column : Nat) : List Char :=
  match row[column]?.filter isSymbol with
  | some c => [c]
  | none =>
    ((row.take column).reverse.takeWhile Text.isWordChar).reverse ++
      (row.drop column).takeWhile Text.isWordChar

/-- The word at a position of a text. There is none after the last line, and none where no
character of a word is next to the column. -/
def wordAt (text : String) (line column : Nat) : Except PositionError (Option String) :=
  match (Text.lines text.toList)[line]? with
  | none => .ok none
  | some row =>
    if row.length < column then .error .columnOutOfRange
    else
      let word := wordInLine row column
      .ok (if word.isEmpty then none else some (String.ofList word))

end LineCalc.Document
