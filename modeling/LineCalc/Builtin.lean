import LineCalc.Table

/-!
# Built-in names

The operators are bound in every table, and groups of further names on demand. The only group so
far is `math`: two constants and the functions of an angle.
-/

namespace LineCalc.Builtin

variable {β : Type}

/-- Half the circumference of the unit circle. -/
def pi : Binary64 :=
  Binary64.ofBits 0x400921FB54442D18

/-- The circumference of the unit circle. -/
def tau : Binary64 :=
  Binary64.ofBits 0x401921FB54442D18

/-- The operators by their symbols. -/
def operators : List (String × Value β) :=
  Operator.all.map fun op => (op.symbol, .function (.operator op))

/-- The constants and functions of the group `math`. -/
def math : List (String × Value β) :=
  [("π", .number pi), ("τ", .number tau)] ++
    AngleFunction.all.map fun f => (f.name, .function (.angle f))

/-- The names of a group, if there is one of that name. -/
def group? (name : String) : Option (List (String × Value β)) :=
  if name = "math" then some math else none

/-- Binds the names of each group that there is, and tells which ones there are. -/
def register (table : Table β) (groups : List String) : List String × Table β :=
  groups.foldl (fun (registered, table) name =>
    match group? name with
    | some entries => (registered ++ [name], table.insertAll entries)
    | none => (registered, table)) ([], table)

/-- The table of the operators. -/
def operatorTable : Table β :=
  OrderedMap.empty.insertAll operators

/-- The table of the operators and of groups. -/
def table (groups : List String) : Table β :=
  (register operatorTable groups).2

/-- The names that are bound once groups are registered. -/
def knownNames (groups : List String) : List String :=
  (table groups : Table Empty).names

/-- What a built-in name means, in one line. -/
def signatures : List (String × String) :=
  [("+", "+(a, b) | +(a): sum or identity; lifted over functions"),
   ("-", "-(a, b) | -(a): difference or negation; lifted over functions"),
   ("*", "*(a, b): product; lifted over functions"),
   ("/", "/(a, b): quotient; lifted over functions"),
   ("%", "%(a, b): truncated remainder; lifted over functions"),
   ("^", "^(a, b): power; lifted over functions"),
   ("π", "π: 3.141592653589793"),
   ("τ", "τ: 2π"),
   ("sin", "sin(x): sine of x radians"),
   ("cos", "cos(x): cosine of x radians"),
   ("tan", "tan(x): tangent of x radians"),
   ("asin", "asin(x): arcsine, in radians"),
   ("acos", "acos(x): arccosine, in radians"),
   ("atan", "atan(x): arctangent, in radians")]

/-- The meaning of a name, whichever groups are registered. -/
def signature? (name : String) : Option String :=
  signatures.lookup name

end LineCalc.Builtin
