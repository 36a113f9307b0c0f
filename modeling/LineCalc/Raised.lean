import LineCalc.Text.Quoted

/-!
# What is raised outside of the calculator

Functions of a host may raise something of their own, and so may objects of a host that are to be
shown. Most of it is an exception. A call does not take notice of the rest: of a recursion limit,
and of what is no exception but ends the program.
-/

namespace LineCalc

/-- What calls make of something that is raised inside them. -/
inductive Category where
  /-- An exception. The call fails because of it. -/
  | exception
  /-- A limit of the recursion. It ends every call as it is. -/
  | recursion
  /-- No exception, but a request to stop. It ends every call as it is. -/
  | stop
deriving DecidableEq

/-- Something that is raised. -/
structure Raised where
  /-- What calls make of it. -/
  category : Category
  /-- The name of its kind. -/
  kind : String
  /-- Its text. -/
  message : String
  /-- What it is shown as beside other objects. That is made by the host, which may raise something
  else instead. -/
  display : Except Raised String

namespace Raised

/-- What has nothing but a text is shown as its kind with that text. -/
def ofMessage (category : Category) (kind message : String) : Raised :=
  ⟨category, kind, message, .ok (kind ++ "(" ++ Text.quoted message ++ ")")⟩

/-- Calls are nested too deep. -/
def recursionLimit : Raised :=
  ofMessage .recursion "RecursionError" "maximum recursion depth exceeded"

/-- How many digits an integer may have to be shown. -/
def maxDigits : Nat :=
  4300

/-- An integer has too many digits to be shown. -/
def tooManyDigits : Raised :=
  ofMessage .exception "ValueError" ("Exceeds the limit (" ++ toString maxDigits ++
    " digits) for integer string conversion; use sys.set_int_max_str_digits() to increase the limit")

end Raised

end LineCalc
