import LineCalc.Builtin
import LineCalc.Evaluation
import LineCalc.Parser.Lookahead
import LineCalc.Settings

/-!
# One line evaluated

The answer to an expression is its value, or why it has none. Its names are the built-in ones.
-/

namespace LineCalc

/-- A source text with the expression that it spells and a table of its own. -/
structure Expression (β : Type) where
  /-- The text. -/
  source : String
  /-- The expression. -/
  expr : Expr
  /-- The names that it may use: at first the operators. -/
  table : Table β

namespace Expression

variable {β σ : Type} [Numerics]

/-- The expression that a text spells, over the operators. -/
def ofString (source : String) : Except ParseError (Expression β) :=
  (parse source).map fun expr => ⟨source, expr, Builtin.operatorTable⟩

/-- An expression as it is displayed. -/
def display (expression : Expression β) : String :=
  "Expression(" ++ Text.quoted expression.source ++ ")"

/-- The value of an expression. -/
def evaluate (host : Host β σ) (expression : Expression β) : Evaluation β σ (Value β) :=
  expression.expr.evaluate host expression.table

end Expression

namespace CommandLine

/-- A text to be printed, and whether it is a value. -/
structure Answer where
  /-- The value or the error. -/
  text : String
  /-- Whether there is a value. -/
  ok : Bool
deriving DecidableEq

/-- There are no functions but the built-in ones. -/
def noHost : Host Empty Unit :=
  fun b => nomatch b

variable [Numerics]

/-- The answer to a source text. -/
def run (setting : Option String) (source : String) : Answer :=
  match Expression.ofString source with
  | .error error => ⟨"ParseError: " ++ error.message, false⟩
  | .ok expression =>
    let table := (Builtin.register expression.table (Settings.groups setting)).2
    match { expression with table }.evaluate noHost () with
    | .ok v _ => ⟨v.display, true⟩
    | .error failure _ => ⟨failure.message, false⟩

/-- The characters of a text in which each line break is a line feed: a carriage return is one as
well, and so are both in a row. -/
def lineFeedsOf : List Char → List Char
  | [] => []
  | '\r' :: '\n' :: cs => '\n' :: lineFeedsOf cs
  | c :: cs => (if c = '\r' then '\n' else c) :: lineFeedsOf cs

/-- A text as it comes from a stream of text. -/
def lineFeeds (text : String) : String :=
  String.ofList (lineFeedsOf text.toList)

/-- A text up to and with its first line feed. -/
def firstLine : List Char → List Char
  | [] => []
  | c :: cs => if c = '\n' then [c] else c :: firstLine cs

/-- The source text: the arguments with spaces between them, or without arguments the first line
of the input, whose lines end at line feeds. -/
def source (arguments : List String) (input : String) : String :=
  if arguments.isEmpty then String.ofList (firstLine input.toList) else " ".intercalate arguments

/-- What is printed, and the exit status. -/
def respond (setting : Option String) (arguments : List String) (input : String) : String × Nat :=
  let answer := run setting (source arguments input)
  (answer.text ++ "\n", if answer.ok then 0 else 1)

end CommandLine

end LineCalc
