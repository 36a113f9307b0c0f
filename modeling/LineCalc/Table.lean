import LineCalc.Datum
import LineCalc.OrderedMap
import LineCalc.Value

/-!
# Tables of names

A table binds names to values. A binding is refused unless its name is a text that is not empty
and what it is bound to is a value. The text of the error shows what has been refused, so that there
is another failure instead if that cannot be shown.
-/

namespace LineCalc

/-- Names with their values, in the order in which they were bound first. -/
abbrev Table (β : Type) := OrderedMap (Value β)

/-- What a name is to be bound to: a value, or something else. -/
inductive Candidate (β : Type) where
  | value (v : Value β)
  | other (datum : Datum)
deriving Inhabited

/-- What is wrong with a binding. -/
inductive BindingError where
  /-- The name, which is shown as a text. -/
  | invalidName (shown : String)
  /-- What the name is to be bound to, which is shown as a text. -/
  | invalidValue (name shown : String)

/-- The text of an error. -/
def BindingError.message : BindingError → String
  | .invalidName shown => "Cannot bind " ++ shown ++ ": names must be non-empty strings"
  | .invalidValue name shown =>
    "Cannot bind " ++ name ++ " to " ++ shown ++ ": not a Number or Function"

/-- Why a binding is refused. -/
inductive BindingFailure where
  /-- There is something wrong with it. -/
  | invalid (error : BindingError)
  /-- There is something wrong with it that cannot be shown. -/
  | raised (e : Raised)

/-- The failure of a binding for something that the error shows. -/
def BindingFailure.showing (datum : Datum) (error : String → BindingError) : BindingFailure :=
  match datum.display with
  | .ok shown => .invalid (error shown)
  | .error e => .raised e

namespace Table

variable {β : Type} [Numerics]

/-- The table with a name bound to a candidate. The name is checked before the candidate. -/
def define (table : Table β) (name : Datum) (candidate : Candidate β) :
    Except BindingFailure (Table β) :=
  match name, candidate with
  | .text "", _ => .error (.showing name .invalidName)
  | .text name, .value v => .ok (table.insert name v)
  | .text name, .other datum => .error (.showing datum (.invalidValue name))
  | _, _ => .error (.showing name .invalidName)

/-- Binds one name after the other, up to the first one that is refused. -/
def update (table : Table β) : List (Datum × Candidate β) → Option BindingFailure × Table β
  | [] => (none, table)
  | (name, candidate) :: bindings =>
    match table.define name candidate with
    | .ok table => update table bindings
    | .error failure => (some failure, table)

/-- The table of some bindings, if none of them is refused. -/
def ofBindings (bindings : List (Datum × Candidate β)) : Except BindingFailure (Table β) :=
  match update OrderedMap.empty bindings with
  | (none, table) => .ok table
  | (some failure, _) => .error failure

/-- A table as it is displayed. -/
def display (table : Table β) : String :=
  "\x7b" ++ ", ".intercalate (table.entries.map fun entry => entry.1 ++ ": " ++ entry.2.display) ++
    "\x7d"

/-- A table as it is displayed beside other objects. -/
def displayObject (table : Table β) : String :=
  "<SymbolTable " ++ table.display ++ ">"

end Table

end LineCalc
