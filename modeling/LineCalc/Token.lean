/-!
# Tokens

A token is a piece of a source text with its kind and its place. Operators and brackets are one
character each, and that character determines the kind.
-/

namespace LineCalc

/-- The kinds of tokens. -/
inductive TokenKind where
  | unknown
  | endOfFile
  | number
  | identifier
  | plus
  | minus
  | star
  | slash
  | percent
  | caret
  | comma
  | leftParenthesis
  | rightParenthesis
deriving DecidableEq, Inhabited

namespace TokenKind

/-- The name of a kind in messages. -/
def name : TokenKind → String
  | unknown => "Unknown"
  | endOfFile => "EndOfFile"
  | number => "Number"
  | identifier => "Identifier"
  | plus => "Plus"
  | minus => "Minus"
  | star => "Star"
  | slash => "Slash"
  | percent => "Percent"
  | caret => "Caret"
  | comma => "Comma"
  | leftParenthesis => "LeftParenthesis"
  | rightParenthesis => "RightParenthesis"

/-- All kinds. -/
def all : List TokenKind :=
  [unknown, endOfFile, number, identifier, plus, minus, star, slash, percent, caret, comma,
   leftParenthesis, rightParenthesis]

/-- The kind of a given name. -/
def ofName? (s : String) : Option TokenKind :=
  all.find? fun kind => kind.name == s

/-- The kind of a token that is one character long. -/
def ofSymbol? : Char → Option TokenKind
  | '+' => some plus
  | '-' => some minus
  | '*' => some star
  | '/' => some slash
  | '%' => some percent
  | '^' => some caret
  | ',' => some comma
  | '(' => some leftParenthesis
  | ')' => some rightParenthesis
  | _ => none

/-- Whether a token of this kind is shown with its lexeme, since the kind does not tell it. -/
def showsLexeme : TokenKind → Bool
  | unknown | number | identifier => true
  | _ => false

/-- The signs: they stand between terms or before a factor. -/
def isSign : TokenKind → Bool
  | plus | minus => true
  | _ => false

/-- The operators that stand between factors. -/
def joinsFactors : TokenKind → Bool
  | star | slash | percent => true
  | _ => false

/-- The operators: any of them is also the name of a function. -/
def isOperator (kind : TokenKind) : Bool :=
  kind.isSign || kind.joinsFactors || kind == caret

end TokenKind

/-- Whether a character is a token by itself. -/
def isSymbol (c : Char) : Bool :=
  (TokenKind.ofSymbol? c).isSome

/-- A token of a source text. -/
structure Token where
  /-- What the token is. -/
  kind : TokenKind
  /-- The characters of the token. -/
  lexeme : String
  /-- How many characters of the source come before it. -/
  offset : Nat
deriving DecidableEq, Inhabited

namespace Token

/-- A token as it is shown in messages. -/
def display (token : Token) : String :=
  if token.kind.showsLexeme then token.kind.name ++ "(" ++ token.lexeme ++ ")"
  else token.kind.name

end Token

end LineCalc
