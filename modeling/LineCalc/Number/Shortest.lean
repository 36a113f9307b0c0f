import LineCalc.Number.Decimal

/-!
# Shortest decimals

The fewest digits that read back as a given number, and of those the nearest to it.
-/

namespace LineCalc

namespace Shortest

/-- The power of ten of the first digit of a positive magnitude: it lies from `10^p` up to
`10^(p+1)`. The smallest magnitude, some `5 · 10^(-324)`, is scaled to a natural first. -/
def leadingPower (code : Nat) : Int :=
  let scaled := (Binary64.units code * Nat.pow 10 324) >>> 1074
  (Nat.toDigits 10 scaled).length - 325

/-- The magnitude in units of `10^exponent`, as a fraction. -/
def inUnitsOf (code : Nat) (exponent : Int) : Nat × Nat :=
  if 0 ≤ exponent then (Binary64.units code, Nat.pow 10 exponent.toNat <<< 1074)
  else (Binary64.units code * Nat.pow 10 (-exponent).toNat, 1 <<< 1074)

/-- A decimal with the given last place that reads back as the code: of the two neighbours of the
magnitude on that grid the nearer one that does, and of two equally near ones the even one. -/
def onGrid? (code : Nat) (exponent : Int) : Option Decimal :=
  let (num, den) := inUnitsOf code exponent
  let below : Decimal := ⟨num / den, exponent⟩
  let above : Decimal := ⟨num / den + 1, exponent⟩
  if below.code = code then
    if above.code = code ∧ Binary64.roundDiv num den ≠ num / den then some above else some below
  else if above.code = code then some above
  else none

/-- The magnitude itself, as a decimal. -/
def exact (code : Nat) : Decimal :=
  ⟨Binary64.units code * Nat.pow 5 1074, -1074⟩

/-- The shortest decimal that reads back as the code, nearest to its magnitude. -/
def decimal (code : Nat) : Decimal :=
  let power := leadingPower code
  let found := (List.range 17).findSome? fun (places : Nat) => onGrid? code (power - places)
  (found.getD (exact code)).reduced

end Shortest

end LineCalc
