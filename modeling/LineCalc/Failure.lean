import LineCalc.Parser
import LineCalc.Table

/-!
# Failures of an evaluation
-/

namespace LineCalc

/-- Why an evaluation has no value. -/
inductive Failure (β : Type) where
  /-- A name is not bound. -/
  | undefinedIdentifier (name : String)
  /-- A number was called. -/
  | invalidFunction (x : Binary64)
  /-- A function does not take these arguments. -/
  | invalidArguments (arguments : List (Value β))
  /-- A call failed for a reason of its own. -/
  | callFailure (inner : Failure β)
  /-- A function of the host parsed a text that is no expression. -/
  | parse (error : ParseError)
  /-- A function of the host made a binding that is refused. -/
  | binding (error : BindingError)
  /-- Something else stood where a tree belongs, which is shown as a text. -/
  | invalidTree (shown : String)
  /-- Something has been raised outside of the calculator. -/
  | raised (e : Raised)

namespace Failure

variable {β : Type} [Numerics]

/-- The name of the kind of a failure. -/
def kind : Failure β → String
  | .undefinedIdentifier _ => "UndefinedIdentifier"
  | .invalidFunction _ => "InvalidFunction"
  | .invalidArguments _ => "InvalidArguments"
  | .callFailure _ => "FunctionCallFailure"
  | .parse _ => "ParseError"
  | .binding _ => "InvalidBinding"
  | .invalidTree _ => "TypeError"
  | .raised e => e.kind

/-- The text of the failure of something that is no tree. -/
def invalidTreeMessage (shown : String) : String :=
  "Cannot evaluate " ++ shown ++ ": not a syntax tree"

/-- A failure as it is displayed: its kind, and what it is about. What has been raised by a host and
cannot be shown has its kind alone here, but there is no failure of a call that would show it. -/
def display : Failure β → String
  | .undefinedIdentifier name => "UndefinedIdentifier(" ++ Text.quoted name ++ ")"
  | .invalidFunction x => "InvalidFunction(" ++ (Value.number x : Value β).display ++ ")"
  | .invalidArguments arguments => "InvalidArguments(" ++ Value.displayList arguments ++ ")"
  | .callFailure inner => "FunctionCallFailure(" ++ inner.display ++ ")"
  | .parse error => "ParseError(" ++ Text.quoted error.message ++ ")"
  | .binding error => "InvalidBinding(" ++ Text.quoted error.message ++ ")"
  | .invalidTree shown => "TypeError(" ++ Text.quoted (invalidTreeMessage shown) ++ ")"
  | .raised e => e.display.toOption.getD e.kind

/-- The text of a failure. -/
def message : Failure β → String
  | .undefinedIdentifier name => "undefined identifier \"" ++ name ++ "\""
  | .invalidFunction x => "invalid function " ++ (Value.number x : Value β).display
  | .invalidArguments arguments => "invalid arguments " ++ Value.displayList arguments
  | .callFailure inner => "function call failure " ++ inner.display
  | .parse error => error.message
  | .binding error => error.message
  | .invalidTree shown => invalidTreeMessage shown
  | .raised e => e.message

/-- The failure of something that needs a binding which is refused. -/
def ofBinding : BindingFailure → Failure β
  | .invalid error => .binding error
  | .raised e => .raised e

end Failure

/-- The value of a name in a table. -/
def Table.lookup {β : Type} (table : Table β) (name : String) : Except (Failure β) (Value β) :=
  match table.get? name with
  | some v => .ok v
  | none => .error (.undefinedIdentifier name)

end LineCalc
