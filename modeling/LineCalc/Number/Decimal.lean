import LineCalc.Number.Binary64

/-!
# Decimal numbers

A decimal is a natural times a power of ten. Reading one gives the nearest double-precision
number.
-/

namespace LineCalc

/-- The number `digits · 10^exponent`. -/
structure Decimal where
  /-- The digits as one natural. -/
  digits : Nat
  /-- The power of ten of the last digit. -/
  exponent : Int
deriving DecidableEq, Inhabited

namespace Decimal

/-- The code of the nearest magnitude. Decimals of at least `10^309` are infinite, and those of at
most `10^(-324)` round to zero, so that no power of ten is computed for them. -/
def code (d : Decimal) : Nat :=
  if d.digits = 0 then 0
  else if 309 ≤ d.exponent then infinityCode
  else if d.exponent + (d.digits.log2 / 3 + 1) ≤ -324 then 0
  else if 0 ≤ d.exponent then Binary64.nearestCode (d.digits * Nat.pow 10 d.exponent.toNat) 1
  else Binary64.nearestCode d.digits (Nat.pow 10 (-d.exponent).toNat)

/-- The nearest number to a decimal of the given sign. -/
def toBinary64 (negative : Bool) (d : Decimal) : Binary64 :=
  Binary64.ofCode negative d.code

/-- The same decimal without zeros at its end, as far as `fuel` zeros. -/
def dropZeros : Nat → Decimal → Decimal
  | 0, d => d
  | fuel + 1, d =>
    if d.digits ≠ 0 ∧ d.digits % 10 = 0 then dropZeros fuel ⟨d.digits / 10, d.exponent + 1⟩ else d

/-- The same decimal without zeros at its end. -/
def reduced (d : Decimal) : Decimal :=
  dropZeros d.digits.log2 d

end Decimal

end LineCalc
