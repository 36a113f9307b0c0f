import LineCalc.Number.Layout
import LineCalc.Operator

/-!
# Arithmetic of this machine

The operators and the functions of an angle on machine numbers, and the shortest digits that read
back as a number. Negation and remainders are exact, so that they are computed on the codes.
-/

namespace LineCalc

namespace Binary64

/-- The machine number of the same value. -/
def toFloat (x : Binary64) : Float :=
  Float.ofBits (UInt64.ofNat x.bits)

/-- The number of the same value as a machine number. -/
def ofFloat (x : Float) : Binary64 :=
  ofBits x.toBits.toNat

/-- A function of one machine number, on numbers. -/
def lift (f : Float → Float) (x : Binary64) : Binary64 :=
  ofFloat (f x.toFloat)

/-- A function of two machine numbers, on numbers. -/
def lift₂ (f : Float → Float → Float) (x y : Binary64) : Binary64 :=
  ofFloat (f x.toFloat y.toFloat)

/-- The opposite number: only the sign changes, also that of a zero. -/
def negate : Binary64 → Binary64
  | .nan => .nan
  | .infinite negative => .infinite !negative
  | .finite negative code => .finite (!negative) code

/-- The remainder of the division that truncates its quotient. It is exact and has the sign of
the dividend; an infinite dividend or a zero divisor leaves none. -/
def remainder : Binary64 → Binary64 → Binary64
  | .nan, _ | _, .nan | .infinite _, _ => .nan
  | .finite negative x, .infinite _ => .finite negative x
  | .finite negative x, .finite _ y =>
    if y.val = 0 then .nan else ofCode negative (roundUnits (units x % units y) 1)

/-- The number two. -/
def two : Binary64 :=
  .finite false ⟨0x4000000000000000, by decide⟩

/-- A number to the power of another. A square is the product of a number with itself and so the
nearest number to its value; the power function of the machine may miss that by one place. -/
def power (x y : Binary64) : Binary64 :=
  if y = two then lift₂ Float.mul x x else lift₂ Float.pow x y

/-- The fewest digits that read back as a finite number, with its sign before them. -/
def shortestDigits (negative : Bool) (code : Fin infinityCode) : String :=
  String.ofList (sign negative ++ (shortest code).positional)

end Binary64

namespace Native

/-- What this machine does with numbers. -/
scoped instance numerics : Numerics where
  binary
    | .add => Binary64.lift₂ Float.add
    | .subtract => Binary64.lift₂ Float.sub
    | .multiply => Binary64.lift₂ Float.mul
    | .divide => Binary64.lift₂ Float.div
    | .remainder => Binary64.remainder
    | .power => Binary64.power
  negate := Binary64.negate
  angle
    | .sin => Binary64.lift Float.sin
    | .cos => Binary64.lift Float.cos
    | .tan => Binary64.lift Float.tan
    | .asin => Binary64.lift Float.asin
    | .acos => Binary64.lift Float.acos
    | .atan => Binary64.lift Float.atan
  print := Binary64.shortestDigits

end Native

end LineCalc
