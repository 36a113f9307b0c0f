import LineCalc.Number.Decimal

/-!
# Number literals

Digits with at most one point, then possibly an exponent: a letter `e` of either case, at most one
sign, and at least one digit. A letter `e` without digits after it is no part of the literal.
-/

namespace LineCalc

/-- The exponent of a literal. -/
structure Exponent where
  /-- The letter, of either case. -/
  letter : Char
  /-- The sign, if one is written. -/
  sign : Option Char
  /-- The digits. -/
  digits : List Char
deriving DecidableEq, Inhabited

/-- The parts of a literal. -/
structure Literal where
  /-- The digits before the point. -/
  whole : List Char
  /-- The digits after the point, if there is a point. -/
  fraction : Option (List Char)
  /-- The exponent, if there is one. -/
  exponent : Option Exponent
deriving DecidableEq, Inhabited

namespace Exponent

/-- The characters of an exponent. -/
def chars (e : Exponent) : List Char :=
  e.letter :: (e.sign.toList ++ e.digits)

/-- The value of an exponent. -/
def value (e : Exponent) : Int :=
  let magnitude : Int := Nat.ofDigitChars 10 e.digits 0
  if e.sign = some '-' then -magnitude else magnitude

/-- The sign at the start of a text, and what follows it. -/
def readSign : List Char → Option Char × List Char
  | '+' :: cs => (some '+', cs)
  | '-' :: cs => (some '-', cs)
  | cs => (none, cs)

/-- The exponent at the start of a text, if there is one, and what follows it. -/
def read (cs : List Char) : Option Exponent × List Char :=
  match cs with
  | [] => (none, [])
  | c :: after =>
    let digits := (readSign after).2.takeWhile Char.isDigit
    if (c = 'e' ∨ c = 'E') ∧ digits ≠ [] then
      (some ⟨c, (readSign after).1, digits⟩, (readSign after).2.dropWhile Char.isDigit)
    else (none, cs)

end Exponent

namespace Literal

/-- The characters of a literal. -/
def chars (l : Literal) : List Char :=
  l.whole ++ (l.fraction.elim [] ('.' :: ·)) ++ l.exponent.elim [] Exponent.chars

/-- The value of a literal. -/
def value (l : Literal) : Decimal where
  digits := Nat.ofDigitChars 10 (l.whole ++ l.fraction.getD []) 0
  exponent := l.exponent.elim 0 Exponent.value - (l.fraction.getD []).length

/-- Whether a literal starts here: at a digit, or at a point before a digit. -/
def starts : List Char → Bool
  | '.' :: c :: _ => c.isDigit
  | c :: _ => c.isDigit
  | [] => false

/-- The point and the digits at the start of a text, if there is a point, and what follows. -/
def readFraction : List Char → Option (List Char) × List Char
  | '.' :: cs => (some (cs.takeWhile Char.isDigit), cs.dropWhile Char.isDigit)
  | cs => (none, cs)

/-- The longest literal at the start of a text, and what follows it. -/
def read (cs : List Char) : Literal × List Char :=
  let (fraction, afterFraction) := readFraction (cs.dropWhile Char.isDigit)
  let (exponent, rest) := Exponent.read afterFraction
  (⟨cs.takeWhile Char.isDigit, fraction, exponent⟩, rest)

/-- The number that a text with a literal at its start stands for. -/
def toBinary64 (cs : List Char) : Binary64 :=
  (read cs).1.value.toBinary64 false

end Literal

/-! ## Nothing is lost in reading -/

namespace Exponent

/-- A sign and what follows it make up the text. -/
theorem readSign_append (cs : List Char) : (readSign cs).1.toList ++ (readSign cs).2 = cs := by
  unfold readSign; split <;> simp

/-- An exponent and what follows it make up the text. -/
theorem read_append (cs : List Char) : (read cs).1.elim [] chars ++ (read cs).2 = cs := by
  unfold read
  split
  · rfl
  · next c after =>
    dsimp only
    split
    · simp only [Option.elim, chars, List.cons_append, List.append_assoc,
        List.takeWhile_append_dropWhile, readSign_append]
    · simp

end Exponent

namespace Literal

/-- A fraction and what follows it make up the text. -/
theorem readFraction_append (cs : List Char) :
    (readFraction cs).1.elim [] ('.' :: ·) ++ (readFraction cs).2 = cs := by
  unfold readFraction; split <;> simp

/-- A literal and what follows it make up the text. -/
theorem read_append (cs : List Char) : (read cs).1.chars ++ (read cs).2 = cs := by
  have hexp := Exponent.read_append (readFraction (cs.dropWhile Char.isDigit)).2
  have hfrac := readFraction_append (cs.dropWhile Char.isDigit)
  simp only [read, chars, List.append_assoc]
  rw [hexp, hfrac, List.takeWhile_append_dropWhile]

/-- Where a literal starts, it has a character. -/
theorem chars_read_ne_nil {cs : List Char} (h : starts cs = true) : (read cs).1.chars ≠ [] := by
  unfold starts at h
  split at h
  · simp [read, chars, readFraction, Char.isDigit, List.dropWhile, List.takeWhile]
  · simp [read, chars, List.takeWhile, h]
  · simp at h

end Literal

end LineCalc
