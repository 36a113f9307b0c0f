import LineCalc.Number.Binary64

/-!
# Arithmetic

The six operators with two operands, of which two also take one, and the functions of an angle. What
they give, and which digits a number is displayed with, is up to the machine (`Numerics`).
-/

namespace LineCalc

/-- The arithmetic operators. -/
inductive Operator where
  | add
  | subtract
  | multiply
  | divide
  | remainder
  | power
deriving DecidableEq, Inhabited

namespace Operator

/-- The operators in the order in which they are bound. -/
def all : List Operator :=
  [add, subtract, multiply, divide, remainder, power]

/-- The symbol of an operator. -/
def symbol : Operator → String
  | add => "+"
  | subtract => "-"
  | multiply => "*"
  | divide => "/"
  | remainder => "%"
  | power => "^"

/-- The operator of a symbol. -/
def ofSymbol? (symbol : String) : Option Operator :=
  all.find? fun op => op.symbol == symbol

/-- The operators that also take one operand. -/
def isSign : Operator → Bool
  | add | subtract => true
  | _ => false

end Operator

/-- The functions of an angle in radians and their inverses. -/
inductive AngleFunction where
  | sin
  | cos
  | tan
  | asin
  | acos
  | atan
deriving DecidableEq, Inhabited

namespace AngleFunction

/-- The functions in the order in which they are bound. -/
def all : List AngleFunction :=
  [sin, cos, tan, asin, acos, atan]

/-- The name of a function. -/
def name : AngleFunction → String
  | sin => "sin"
  | cos => "cos"
  | tan => "tan"
  | asin => "asin"
  | acos => "acos"
  | atan => "atan"

/-- The function of a name. -/
def ofName? (name : String) : Option AngleFunction :=
  all.find? fun f => f.name == name

end AngleFunction

/-! ## Numbers as the machine has them -/

/-- What is done with numbers outside of the calculator. Nothing is said here about results and
digits: where a statement depends on them, it names what it needs. -/
class Numerics where
  /-- The result of an operator for two operands. -/
  binary : Operator → Binary64 → Binary64 → Binary64
  /-- The result of the minus sign for one operand. -/
  negate : Binary64 → Binary64
  /-- The result of a function of an angle. -/
  angle : AngleFunction → Binary64 → Binary64
  /-- The digits of a finite number that has this sign and this code. -/
  print : Bool → Fin infinityCode → String

variable [Numerics]

/-- The result for two operands. -/
def Operator.binary : Operator → Binary64 → Binary64 → Binary64 :=
  Numerics.binary

/-- The result for one operand, if the operator is a sign. -/
def Operator.unary? : Operator → Option (Binary64 → Binary64)
  | add => some id
  | subtract => some Numerics.negate
  | _ => none

/-- The result for an argument; outside the domain it is not a number. -/
def AngleFunction.eval : AngleFunction → Binary64 → Binary64 :=
  Numerics.angle

/-- A number as it is displayed. -/
def Binary64.format : Binary64 → String
  | .nan => "NaN"
  | .infinite false => "inf"
  | .infinite true => "-inf"
  | .finite negative code => Numerics.print negative code

/-- An operator has a result for one operand if it is a sign. -/
theorem Operator.isSome_unary? (op : Operator) : op.unary?.isSome = op.isSign := by
  cases op <;> rfl

end LineCalc
