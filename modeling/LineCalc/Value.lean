import LineCalc.Operator

/-!
# Values

A value is a number or a function. A function is an operator, a function of an angle, a function
of the host, or what an operator makes of operands among which there are functions: it hands its
own arguments to these and applies the operator to their results.
-/

namespace LineCalc

/-- A function, over the functions `β` of the host. -/
inductive Function (β : Type) where
  | operator (op : Operator)
  | angle (f : AngleFunction)
  | host (b : β)
  | unary (op : Operator) (f : Function β)
  | binary (op : Operator) (f g : Function β)
  | binaryLeft (op : Operator) (f : Function β) (y : Binary64)
  | binaryRight (op : Operator) (x : Binary64) (g : Function β)
deriving Inhabited

/-- A number or a function. -/
inductive Value (β : Type) where
  | number (x : Binary64)
  | function (f : Function β)
deriving Inhabited

variable [Numerics]

namespace Value

variable {β : Type}

/-- A value as it is displayed. -/
def display : Value β → String
  | .number x => "Number(" ++ x.format ++ ")"
  | .function _ => "Function"

/-- Values as they are displayed in a list. -/
def displayList (values : List (Value β)) : String :=
  "[" ++ ", ".intercalate (values.map display) ++ "]"

end Value

/-- An operator on values: numbers are combined, functions are lifted over, and other numbers of
operands have no result. -/
def Operator.eval? {β : Type} (op : Operator) : List (Value β) → Option (Value β)
  | [.number x, .number y] => some (.number (op.binary x y))
  | [.function f, .function g] => some (.function (.binary op f g))
  | [.number x, .function g] => some (.function (.binaryRight op x g))
  | [.function f, .number y] => some (.function (.binaryLeft op f y))
  | [.number x] => op.unary?.map fun sign => .number (sign x)
  | [.function f] => op.unary?.map fun _ => .function (.unary op f)
  | _ => none

/-- A function of an angle on values: one number has a result. -/
def AngleFunction.eval? {β : Type} (f : AngleFunction) : List (Value β) → Option (Value β)
  | [.number x] => some (.number (f.eval x))
  | _ => none

end LineCalc
