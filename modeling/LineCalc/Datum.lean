import LineCalc.Number.Layout
import LineCalc.Raised

/-!
# Data from outside the calculator

What a host may hand to the calculator where a name, a value or a tree belongs, and how it is shown
when it is refused. Not everything can be shown: an integer may have too many digits, and what an
object of the host is shown as is up to the host.
-/

namespace LineCalc

/-- A piece of data. -/
inductive Datum where
  | null
  | boolean (value : Bool)
  | integer (value : Int)
  | number (value : Binary64)
  | text (value : String)
  | list (items : List Datum)
  | record (fields : List (String × Datum))
  /-- Any other object: what it is shown as, or what is raised instead. -/
  | object (display : Except Raised String)
deriving Inhabited

namespace Datum

mutual

/-- A piece of data as it is shown, or what is raised instead. -/
def display : Datum → Except Raised String
  | .null => return "None"
  | .boolean true => return "True"
  | .boolean false => return "False"
  | .integer value =>
    if value.natAbs < Nat.pow 10 Raised.maxDigits then return toString value
    else throw .tooManyDigits
  | .number value => return value.formatCompact
  | .text value => return Text.quoted value
  | .list items => return "[" ++ ", ".intercalate (← displayItems items) ++ "]"
  | .record fields => return "\x7b" ++ ", ".intercalate (← displayFields fields) ++ "\x7d"
  | .object display => display

/-- The items of a list as they are shown. -/
def displayItems : List Datum → Except Raised (List String)
  | [] => return []
  | item :: items => return (← display item) :: (← displayItems items)

/-- The fields of a record as they are shown. -/
def displayFields : List (String × Datum) → Except Raised (List String)
  | [] => return []
  | (name, value) :: fields =>
    return (Text.quoted name ++ ": " ++ (← display value)) :: (← displayFields fields)

end

end Datum

end LineCalc
