import LineCalc.Number.Shortest

/-!
# Numbers as text

A number is written positionally: all its digits before and after a point, none for an integral
value after it, never an exponent. Data from outside the calculator is shown in scientific notation
where that is shorter.
-/

namespace LineCalc

namespace Decimal

/-- The digits of a decimal, first to last. -/
def digitChars (d : Decimal) : List Char :=
  Nat.toDigits 10 d.digits

/-- All digits of a decimal before and after the point, with at least one before it. -/
def positional (d : Decimal) : List Char :=
  if 0 ≤ d.exponent then d.digitChars ++ List.replicate d.exponent.toNat '0'
  else
    let places := (-d.exponent).toNat
    let padded := List.replicate (places + 1 - d.digitChars.length) '0' ++ d.digitChars
    padded.take (padded.length - places) ++ '.' :: padded.drop (padded.length - places)

/-- The power of ten of the first digit. -/
def magnitude (d : Decimal) : Int :=
  d.exponent + d.digitChars.length - 1

/-- One digit, a point and the other digits if there are any, and the power of ten with its sign
and at least two digits. -/
def scientific (d : Decimal) : List Char :=
  let power := Nat.toDigits 10 d.magnitude.natAbs
  let fraction := d.digitChars.tail
  d.digitChars.take 1 ++ (if fraction.isEmpty then [] else '.' :: fraction) ++
    ['e', if d.magnitude < 0 then '-' else '+'] ++ List.replicate (2 - power.length) '0' ++ power

/-- Positional with a decimal place at least from `10^(-4)` up to `10^16`, and scientific
outside. -/
def compact (d : Decimal) : List Char :=
  if d.digits = 0 then ['0', '.', '0']
  else if d.magnitude < -4 ∨ 16 ≤ d.magnitude then d.scientific
  else if 0 ≤ d.exponent then d.positional ++ ['.', '0']
  else d.positional

end Decimal

namespace Binary64

/-- A minus sign, or nothing. -/
def sign (negative : Bool) : List Char :=
  if negative then ['-'] else []

/-- The shortest decimal of a code; zero has the digit zero. -/
def shortest (code : Nat) : Decimal :=
  if code = 0 then ⟨0, 0⟩ else Shortest.decimal code

/-- A number as it is shown in data from outside the calculator. -/
def formatCompact : Binary64 → String
  | .nan => "nan"
  | .infinite negative => String.ofList (sign negative ++ ['i', 'n', 'f'])
  | .finite negative code => String.ofList (sign negative ++ (shortest code).compact)

end Binary64

end LineCalc
