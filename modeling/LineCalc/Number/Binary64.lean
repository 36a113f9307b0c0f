/-!
# Double-precision numbers

A number is not-a-number, an infinity, or a sign with the code of a finite magnitude. The codes
count the magnitudes in ascending order from zero, as the 63 low bits of the interchange format
do: a magnitude is a significand of at most 53 bits times a power of two, in units of `2^(-1074)`.
-/

namespace LineCalc

/-- The code of the infinite magnitude: smaller codes are finite. -/
abbrev infinityCode : Nat := 0x7FF0000000000000

/-- How many codes share one power of two. -/
abbrev binade : Nat := 0x10000000000000

/-- A double-precision number. All that is not a number is one value, and zero has two signs. -/
inductive Binary64 where
  | nan
  | infinite (negative : Bool)
  | finite (negative : Bool) (code : Fin infinityCode)
deriving DecidableEq, Inhabited

namespace Binary64

/-! ## Magnitudes -/

/-- The power of two, above `2^(-1074)`, that the significand of a code counts. -/
def scale (code : Nat) : Nat :=
  code / binade - 1

/-- The significand of a code. -/
def significand (code : Nat) : Nat :=
  code - scale code * binade

/-- The magnitude of a code in units of `2^(-1074)`. -/
def units (code : Nat) : Nat :=
  significand code <<< scale code

/-- Zero, the magnitude of no units. -/
def zero (negative : Bool) : Binary64 :=
  .finite negative ⟨0, by decide⟩

/-- The number of a sign and the code of a magnitude: infinite from `infinityCode` on. -/
def ofCode (negative : Bool) (code : Nat) : Binary64 :=
  if h : code < infinityCode then .finite negative ⟨code, h⟩ else .infinite negative

/-! ## Rounding -/

/-- The quotient of two naturals rounded to the nearest one, halves to the even neighbour. -/
def roundDiv (num den : Nat) : Nat :=
  let quotient := num / den
  let twice := 2 * (num % den)
  if twice < den ∨ (twice = den ∧ quotient % 2 = 0) then quotient else quotient + 1

/-- The code nearest to `num / den` units: the quotient keeps 53 bits, and what it loses is
rounded. -/
def roundUnits (num den : Nat) : Nat :=
  let scale := (num / den).log2 - 52
  min infinityCode (scale * binade + roundDiv num (den <<< scale))

/-- The code nearest to `num / den`. -/
def nearestCode (num den : Nat) : Nat :=
  roundUnits (num <<< 1074) den

/-! ## The interchange format -/

/-- The sign bit of the interchange format. -/
abbrev signBit : Nat := 0x8000000000000000

/-- The 64 bits of a number in the interchange format, as a natural. -/
def bits : Binary64 → Nat
  | .nan => 0x7FF8000000000000
  | .infinite negative => (if negative then signBit else 0) + infinityCode
  | .finite negative code => (if negative then signBit else 0) + code

/-- The number that 64 bits of the interchange format stand for. -/
def ofBits (n : Nat) : Binary64 :=
  let code := n % signBit
  if infinityCode < code then .nan else ofCode (signBit ≤ n) code

/-! ## Equality -/

/-- Equality of values: the two zeros are equal, and what is not a number equals nothing. -/
def sameValue : Binary64 → Binary64 → Bool
  | .infinite a, .infinite b => a == b
  | .finite a x, .finite b y => x == y && (a == b || x.val == 0)
  | _, _ => false

/-- A finite code is kept. -/
theorem ofCode_of_lt {negative : Bool} {code : Nat} (h : code < infinityCode) :
    ofCode negative code = .finite negative ⟨code, h⟩ := by
  simp [ofCode, h]

end Binary64

end LineCalc
