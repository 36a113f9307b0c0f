import Mathlib.Computability.RegularExpressions
import Mathlib.Tactic.IntervalCases
import LineCalc.Proofs.Lexing.Lexemes
import LineCalc.Proofs.Parsing.Leaves
import LineCalc.Proofs.Parsing.Soundness

/-!
# Numbers and the language of literals

The literals as a regular language (`Numeral.literal`), which says nothing about how they are read.
A number token is the longest start of the text that is in this language, and there is one wherever
the text starts with a literal (`tokens_numbers`). That no longer literal starts there is by
induction on what is left behind a literal: one that the reader does not end with can be extended
(`Literal.exists_longer`).

The converter has a language of its own (`Numeral.convertible`). It is defined on every literal, and
gives no sign there and always a number (`Numeral.convert?_chars`).
-/

namespace LineCalc

/-! ## The languages -/

namespace Numeral

/-- One of some characters. -/
def oneOf (cs : List Char) : RegularExpression Char :=
  (cs.map .char).sum

/-- Something or nothing. -/
def optional (P : RegularExpression Char) : RegularExpression Char :=
  1 + P

/-- The digits of ASCII. -/
def asciiDigits : List Char :=
  ['0', '1', '2', '3', '4', '5', '6', '7', '8', '9']

/-- A digit. -/
def digit : RegularExpression Char :=
  oneOf asciiDigits

/-- One digit at least. -/
def digits : RegularExpression Char :=
  digit * digit.star

/-- A letter, possibly a sign, and digits. -/
def exponent : RegularExpression Char :=
  oneOf ['e', 'E'] * (optional (oneOf ['+', '-']) * digits)

/-- Digits and possibly a point with digits or none behind it, or a point with digits behind it. -/
def significand : RegularExpression Char :=
  digits * optional (.char '.' * digit.star) + .char '.' * digits

/-- The literals of the source texts. -/
def literal : RegularExpression Char :=
  significand * optional exponent

/-- What the converter takes before an exponent: a point with digits behind it and possibly before
it, or digits and possibly a point. -/
def convertibleSignificand : RegularExpression Char :=
  optional digits * (.char '.' * digits) + digits * optional (.char '.')

/-- The numerals without a sign that the converter takes. It also takes blanks around a numeral,
underscores in it and digits of other scripts, which are of no use here. -/
def convertible : RegularExpression Char :=
  convertibleSignificand * optional exponent

/-- The number that a text is converted to: one of the words for not-a-number and infinity in any
case, or a numeral, with a sign or without. All other texts are rejected. -/
def convert? (cs : List Char) : Option Binary64 :=
  let (sign, magnitude) := Exponent.readSign cs
  let negative : Bool := sign = some '-'
  let word := magnitude.map Char.toLower
  if word = "nan".toList then some .nan
  else if word = "inf".toList ∨ word = "infinity".toList then some (.infinite negative)
  else if convertible.rmatch magnitude then
    some ((Literal.read magnitude).1.value.toBinary64 negative)
  else none

end Numeral

/-- The longest start of a text that is in a language. -/
structure LongestPrefix (language : Language Char) (text w : List Char) : Prop where
  isPrefix : w <+: text
  mem : w ∈ language
  longest : ∀ v ∈ language, v <+: text → v.length ≤ w.length

/-- A number that has no minus sign, and is one. -/
def Binary64.IsNonnegative : Binary64 → Prop
  | .nan => False
  | .infinite negative => negative = false
  | .finite negative _ => negative = false

/-- What a token stands for, if the converter takes the characters of a number. -/
def Atom.ofToken? (token : Token) : Option Atom :=
  if token.kind = .number then (Numeral.convert? token.lexeme.toList).map .number
  else some (.identifier token.lexeme)

/-! ## Membership -/

namespace Numeral

/-- One of some characters is a text of that length. -/
@[simp] theorem mem_oneOf (cs w : List Char) :
    w ∈ (oneOf cs).matches' ↔ ∃ c ∈ cs, w = [c] := by
  unfold oneOf
  induction cs with
  | nil => simp
  | cons c cs ih =>
    rw [List.map_cons, List.sum_cons, RegularExpression.matches'_add, Language.mem_add, ih,
      RegularExpression.matches'_char, List.exists_mem_cons_iff]
    rfl

/-- Nothing is allowed for something optional. -/
@[simp] theorem mem_optional (P : RegularExpression Char) (w : List Char) :
    w ∈ (optional P).matches' ↔ w = [] ∨ w ∈ P.matches' := by
  simp [optional, Language.mem_add]

/-- The digits that are read are those of ASCII. -/
theorem isDigit_iff (c : Char) : c.isDigit ↔ c ∈ asciiDigits := by
  constructor
  · intro h
    have hcode : 48 ≤ c.toNat ∧ c.toNat ≤ 57 := by
      simpa [Char.isDigit, UInt32.le_iff_toNat_le] using h
    obtain ⟨hlow, hhigh⟩ := hcode
    rw [← Char.ofNat_toNat c]
    interval_cases c.toNat <;> decide
  · have hdigits : asciiDigits.all Char.isDigit = true := by decide
    exact List.all_eq_true.mp hdigits c

/-- One digit that is read. -/
theorem mem_digit (w : List Char) : w ∈ digit.matches' ↔ ∃ c, c.isDigit ∧ w = [c] := by
  simp only [digit, mem_oneOf, isDigit_iff]

/-- Any number of digits. -/
theorem mem_star_digit (w : List Char) : w ∈ digit.star.matches' ↔ ∀ c ∈ w, c.isDigit := by
  rw [RegularExpression.matches'_star, Language.mem_kstar]
  constructor
  · rintro ⟨parts, rfl, hparts⟩ c hc
    obtain ⟨part, hpart, hc⟩ := List.mem_flatten.mp hc
    obtain ⟨d, hd, rfl⟩ := (mem_digit part).mp (hparts part hpart)
    exact List.mem_singleton.mp hc ▸ hd
  · intro h
    have hparts : w = (w.map fun c => [c]).flatten := by
      rw [← List.flatMap_def, List.flatMap_singleton']
    refine ⟨_, hparts, fun part hpart => ?_⟩
    obtain ⟨c, hc, rfl⟩ := List.mem_map.mp hpart
    exact (mem_digit _).mpr ⟨c, h c hc, rfl⟩

/-- Digits, of which there is one. -/
theorem mem_digits (w : List Char) : w ∈ digits.matches' ↔ w ≠ [] ∧ ∀ c ∈ w, c.isDigit := by
  unfold digits
  rw [RegularExpression.matches'_mul, Language.mem_mul]
  constructor
  · rintro ⟨first, hfirst, others, hothers, rfl⟩
    obtain ⟨c, hc, rfl⟩ := (mem_digit first).mp hfirst
    exact ⟨by simp, List.forall_mem_cons.mpr ⟨hc, (mem_star_digit others).mp hothers⟩⟩
  · rintro ⟨hne, h⟩
    obtain ⟨c, cs, rfl⟩ := List.exists_cons_of_ne_nil hne
    obtain ⟨hc, hcs⟩ := List.forall_mem_cons.mp h
    exact ⟨[c], (mem_digit _).mpr ⟨c, hc, rfl⟩, cs, (mem_star_digit cs).mpr hcs, rfl⟩

/-- The exponents of the language are those that are well-formed. -/
theorem mem_exponent (w : List Char) :
    w ∈ exponent.matches' ↔ ∃ e : Exponent, e.WellFormed ∧ e.chars = w := by
  unfold exponent
  simp only [RegularExpression.matches'_mul, Language.mem_mul, mem_oneOf, mem_optional, mem_digits]
  constructor
  · rintro ⟨_, ⟨letter, hletter, rfl⟩, _, ⟨sign, hsign, ds, ⟨hne, hds⟩, rfl⟩, rfl⟩
    have hletter : letter = 'e' ∨ letter = 'E' := by simpa using hletter
    rcases hsign with rfl | ⟨c, hc, rfl⟩
    · exact ⟨⟨letter, none, ds⟩, ⟨hletter, by simp, hne, hds⟩, rfl⟩
    · refine ⟨⟨letter, some c, ds⟩, ⟨hletter, fun c' hc' => ?_, hne, hds⟩, rfl⟩
      obtain rfl := Option.some.inj hc'
      simpa using hc
  · rintro ⟨⟨letter, sign, ds⟩, h, rfl⟩
    refine ⟨[letter], ⟨letter, by simpa using h.letter, rfl⟩, sign.toList ++ ds,
      ⟨sign.toList, ?_, ds, ⟨h.ne_nil, h.digits⟩, rfl⟩, rfl⟩
    cases sign with
    | none => exact .inl rfl
    | some c => exact .inr ⟨c, by simpa using h.sign c rfl, rfl⟩

/-- The parts of a literal that has no exponent. -/
theorem exists_significand_iff (w : List Char) :
    (∃ l : Literal, l.WellFormed ∧ l.exponent = none ∧ l.chars = w) ↔
      (∃ whole, (whole ≠ [] ∧ ∀ c ∈ whole, c.isDigit) ∧ whole = w) ∨
      ∃ whole fraction, (∀ c ∈ whole, c.isDigit) ∧ (∀ c ∈ fraction, c.isDigit) ∧
        whole ++ fraction ≠ [] ∧ whole ++ '.' :: fraction = w := by
  constructor
  · rintro ⟨⟨whole, fraction, exponent⟩, h, rfl, rfl⟩
    cases fraction with
    | none =>
      refine .inl ⟨whole, ⟨?_, h.whole⟩, by simp [Literal.chars]⟩
      simpa using h.ne_nil
    | some fraction =>
      exact .inr ⟨whole, fraction, h.whole, h.fraction _ rfl, h.ne_nil, by simp [Literal.chars]⟩
  · rintro (⟨whole, ⟨hne, hwhole⟩, rfl⟩ | ⟨whole, fraction, hwhole, hfraction, hne, rfl⟩)
    · exact ⟨⟨whole, none, none⟩, ⟨hwhole, by simp, by simpa using hne, by simp⟩, rfl,
        by simp [Literal.chars]⟩
    · refine ⟨⟨whole, some fraction, none⟩, ⟨hwhole, fun cs hcs => ?_, hne, by simp⟩, rfl,
        by simp [Literal.chars]⟩
      obtain rfl := Option.some.inj hcs
      exact hfraction

/-- What the language has before an exponent are the literals without one. -/
theorem mem_significand (w : List Char) : w ∈ significand.matches' ↔
    ∃ l : Literal, l.WellFormed ∧ l.exponent = none ∧ l.chars = w := by
  rw [exists_significand_iff]
  unfold significand
  simp only [RegularExpression.matches'_add, RegularExpression.matches'_mul,
    RegularExpression.matches'_char, Language.mem_add, Language.mem_mul, mem_optional,
    mem_digits, mem_star_digit]
  constructor
  · rintro (⟨whole, hwhole, _, rfl | ⟨_, rfl, fraction, hfraction, rfl⟩, rfl⟩ |
      ⟨_, rfl, fraction, hfraction, rfl⟩)
    · exact .inl ⟨whole, hwhole, by simp⟩
    · exact .inr ⟨whole, fraction, hwhole.2, hfraction, by simp [hwhole.1], rfl⟩
    · exact .inr ⟨[], fraction, by simp, hfraction.2, by simpa using hfraction.1, rfl⟩
  · rintro (⟨whole, hwhole, rfl⟩ | ⟨whole, fraction, hwhole, hfraction, hne, rfl⟩)
    · exact .inl ⟨whole, hwhole, [], .inl rfl, by simp⟩
    · by_cases hempty : whole = []
      · subst hempty
        exact .inr ⟨_, rfl, fraction, ⟨by simpa using hne, hfraction⟩, rfl⟩
      · exact .inl ⟨whole, ⟨hempty, hwhole⟩, _, .inr ⟨_, rfl, fraction, hfraction, rfl⟩, rfl⟩

/-- So is what the converter takes before an exponent. -/
theorem mem_convertibleSignificand (w : List Char) : w ∈ convertibleSignificand.matches' ↔
    ∃ l : Literal, l.WellFormed ∧ l.exponent = none ∧ l.chars = w := by
  rw [exists_significand_iff]
  unfold convertibleSignificand
  simp only [RegularExpression.matches'_add, RegularExpression.matches'_mul,
    RegularExpression.matches'_char, Language.mem_add, Language.mem_mul, mem_optional,
    mem_digits]
  constructor
  · rintro (⟨whole, hwhole, _, ⟨_, rfl, fraction, hfraction, rfl⟩, rfl⟩ |
      ⟨whole, hwhole, _, rfl | rfl, rfl⟩)
    · refine .inr ⟨whole, fraction, ?_, hfraction.2, by simp [hfraction.1], rfl⟩
      rcases hwhole with rfl | hwhole
      · simp
      · exact hwhole.2
    · exact .inl ⟨whole, hwhole, by simp⟩
    · exact .inr ⟨whole, [], hwhole.2, by simp, by simpa using hwhole.1, rfl⟩
  · rintro (⟨whole, hwhole, rfl⟩ | ⟨whole, fraction, hwhole, hfraction, hne, rfl⟩)
    · exact .inr ⟨whole, hwhole, [], .inl rfl, by simp⟩
    · by_cases hempty : fraction = []
      · subst hempty
        exact .inr ⟨whole, ⟨by simpa using hne, hwhole⟩, _, .inr rfl, rfl⟩
      · refine .inl ⟨whole, ?_, _, ⟨_, rfl, fraction, ⟨hempty, hfraction⟩, rfl⟩, rfl⟩
        by_cases hwhole' : whole = []
        · exact .inl hwhole'
        · exact .inr ⟨hwhole', hwhole⟩

/-- Literals without an exponent, and then one or none, are literals. -/
theorem mem_mul_exponent {P : RegularExpression Char}
    (hP : ∀ w, w ∈ P.matches' ↔ ∃ l : Literal, l.WellFormed ∧ l.exponent = none ∧ l.chars = w)
    (w : List Char) :
    w ∈ (P * optional exponent).matches' ↔ ∃ l : Literal, l.WellFormed ∧ l.chars = w := by
  simp only [RegularExpression.matches'_mul, Language.mem_mul, mem_optional, mem_exponent, hP]
  constructor
  · rintro ⟨_, ⟨⟨whole, fraction, _⟩, h, rfl, rfl⟩, _, rfl | ⟨e, he, rfl⟩, rfl⟩
    · exact ⟨⟨whole, fraction, none⟩, h, by simp⟩
    · refine ⟨⟨whole, fraction, some e⟩, { h with exponent := fun e' he' => ?_ },
        by simp [Literal.chars]⟩
      obtain rfl := Option.some.inj he'
      exact he
  · rintro ⟨⟨whole, fraction, e⟩, h, rfl⟩
    refine ⟨_, ⟨⟨whole, fraction, none⟩, { h with exponent := by simp }, rfl, rfl⟩,
      e.elim [] Exponent.chars, ?_, by simp [Literal.chars]⟩
    cases e with
    | none => exact .inl rfl
    | some e => exact .inr ⟨e, h.exponent e rfl, rfl⟩

/-- The language of literals are the literals that are well-formed. -/
theorem mem_literal (w : List Char) :
    w ∈ literal.matches' ↔ ∃ l : Literal, l.WellFormed ∧ l.chars = w :=
  mem_mul_exponent mem_significand w

example : literal.rmatch "1.e5".toList = true ∧ literal.rmatch ".5e+".toList = false := by decide

/-- The converter takes every literal. -/
theorem mem_convertible (w : List Char) :
    w ∈ convertible.matches' ↔ ∃ l : Literal, l.WellFormed ∧ l.chars = w :=
  mem_mul_exponent mem_convertibleSignificand w

end Numeral

/-! ## The longest literal -/

namespace Literal

/-- A literal that has not come to its end goes on with a digit, the point or the exponent. -/
theorem exists_longer {l : Literal} {rest : List Char} (h : l.WellFormed)
    (hends : ¬l.EndsBefore rest) : ∃ (l' : Literal) (rest' : List Char), l'.WellFormed ∧
      l'.chars ++ rest' = l.chars ++ rest ∧ rest'.length < rest.length := by
  obtain ⟨whole, fraction, exponent⟩ := l
  by_cases hdigit : ∀ c ∈ rest.head?, c.isDigit = false
  · -- Without an exponent so far, there is either the point or the letter of one.
    have hnone : exponent = none := by
      by_contra hsome
      exact hends ⟨hdigit, fun _ hnone => absurd hnone hsome, fun hnone => absurd hnone hsome⟩
    subst hnone
    by_cases hpoint : fraction = none → ∀ c ∈ rest.head?, c ≠ '.'
    -- No point can follow, so it is an exponent, and that is read.
    · have hread : (Exponent.read rest).1 ≠ none := fun hread =>
        hends ⟨hdigit, fun hfraction _ => hpoint hfraction, fun _ => hread⟩
      obtain ⟨e, he⟩ := Option.ne_none_iff_exists'.mp hread
      have happend := Exponent.read_append rest
      rw [he] at happend
      refine ⟨⟨whole, fraction, some e⟩, (Exponent.read rest).2,
        { h with exponent := fun e' he' => ?_ }, ?_, ?_⟩
      · obtain rfl := Option.some.inj he'
        exact Exponent.wellFormed_read he
      · conv => rhs; rw [← happend]
        simp [chars]
      · have hlength := congrArg List.length happend
        simp [Exponent.chars] at hlength
        omega
    -- There is no fraction yet and a point follows: the longer literal has the empty one.
    · simp only [Classical.not_imp, not_forall, Classical.not_not] at hpoint
      obtain ⟨rfl, c, hc, rfl⟩ := hpoint
      obtain ⟨rest, rfl⟩ := List.head?_eq_some_iff.mp hc
      refine ⟨⟨whole, some [], none⟩, rest, { h with fraction := ?_, exponent := by simp }, ?_, ?_⟩
      · simp
      · simp [chars]
      · simp
  · simp only [not_forall, Bool.not_eq_false] at hdigit
    obtain ⟨d, hd, hdigit⟩ := hdigit
    obtain ⟨rest, rfl⟩ := List.head?_eq_some_iff.mp hd
    have hmore : ∀ {ds : List Char}, (∀ c ∈ ds, c.isDigit) → ∀ c ∈ ds ++ [d], c.isDigit :=
      fun hds => List.forall_mem_append.mpr ⟨hds, List.forall_mem_singleton.mpr hdigit⟩
    -- The digit is one of the last part that there is.
    cases exponent with
    | some e =>
      have he := h.exponent e rfl
      refine ⟨⟨whole, fraction, some { e with digits := e.digits ++ [d] }⟩, rest,
        { h with exponent := fun e' he' => ?_ }, by simp [chars, Exponent.chars], by simp⟩
      obtain rfl := Option.some.inj he'
      exact { he with ne_nil := by simp, digits := hmore he.digits }
    | none =>
      cases fraction with
      | some ds =>
        refine ⟨⟨whole, some (ds ++ [d]), none⟩, rest, ⟨h.whole, fun cs hcs => ?_, by simp, by simp⟩,
          by simp [chars], by simp⟩
        obtain rfl := Option.some.inj hcs
        exact hmore (h.fraction ds rfl)
      | none =>
        exact ⟨⟨whole ++ [d], none, none⟩, rest, ⟨hmore h.whole, by simp, by simp, by simp⟩,
          by simp [chars], by simp⟩

/-- No literal at the start of a text is longer than the one that is read. -/
theorem length_chars_le {l : Literal} {rest : List Char} (h : l.WellFormed) :
    l.chars.length ≤ (read (l.chars ++ rest)).1.chars.length := by
  induction hn : rest.length using Nat.strongRecOn generalizing l rest with
  | ind n ih =>
    by_cases hends : l.EndsBefore rest
    · rw [read_chars h hends]
    · obtain ⟨l', rest', hl', happend, hlength⟩ := exists_longer h hends
      have hread := ih rest'.length (hn ▸ hlength) hl' rfl
      rw [happend] at hread
      have := congrArg List.length happend
      simp only [List.length_append] at this
      omega

/-- A literal is read wherever the text starts with one. -/
theorem starts_iff (cs : List Char) :
    starts cs = true ↔ ∃ w ∈ Numeral.literal.matches', w <+: cs := by
  constructor
  · intro h
    exact ⟨(read cs).1.chars, (Numeral.mem_literal _).mpr ⟨_, wellFormed_read h, rfl⟩,
      _, read_append cs⟩
  · rintro ⟨w, hw, rest, rfl⟩
    obtain ⟨l, hl, rfl⟩ := (Numeral.mem_literal w).mp hw
    exact starts_chars hl rest

/-- The literal that is read is the longest one at the start of the text. -/
theorem longestPrefix_read {cs : List Char} (h : starts cs = true) :
    LongestPrefix Numeral.literal.matches' cs (read cs).1.chars where
  isPrefix := ⟨_, read_append cs⟩
  mem := (Numeral.mem_literal _).mpr ⟨_, wellFormed_read h, rfl⟩
  longest := by
    rintro w hw ⟨rest, rfl⟩
    obtain ⟨l, hl, rfl⟩ := (Numeral.mem_literal w).mp hw
    exact length_chars_le hl

end Literal

/-! ## Converting -/

/-- A text without a sign is converted to no sign. -/
theorem Literal.isNonnegative_toBinary64 (cs : List Char) :
    (Literal.toBinary64 cs).IsNonnegative := by
  unfold Literal.toBinary64 Decimal.toBinary64 Binary64.ofCode
  split <;> rfl

/-- The first character of a literal is a digit or the point. -/
theorem Literal.exists_head {l : Literal} (h : l.WellFormed) :
    ∃ c cs, l.chars = c :: cs ∧ c ∈ '.' :: Numeral.asciiDigits := by
  have hstarts := Literal.starts_chars h []
  rw [List.append_nil] at hstarts
  unfold Literal.starts at hstarts
  split at hstarts
  · next c cs heq => exact ⟨_, _, heq, List.mem_cons_self⟩
  · next c cs _ heq =>
    exact ⟨_, _, heq, List.mem_cons_of_mem _ ((Numeral.isDigit_iff c).mp hstarts)⟩
  · cases hstarts

/-- The characters of a literal are converted to the number that a leaf of them stands for. -/
theorem Numeral.convert?_chars {l : Literal} (h : l.WellFormed) :
    Numeral.convert? l.chars = some (Literal.toBinary64 l.chars) := by
  have hmatch : Numeral.convertible.rmatch l.chars = true :=
    (RegularExpression.rmatch_iff_matches' _ _).mpr ((Numeral.mem_convertible _).mpr ⟨l, h, rfl⟩)
  obtain ⟨c, cs, hchars, hc⟩ := Literal.exists_head h
  rw [hchars] at hmatch ⊢
  -- A digit or a point is no sign, and no letter of a word.
  have hfirst : ('.' :: Numeral.asciiDigits).all
      (fun c => c ≠ '+' ∧ c ≠ '-' ∧ c.toLower ≠ 'n' ∧ c.toLower ≠ 'i') = true := by decide
  obtain ⟨hplus, hminus, hn, hi⟩ := of_decide_eq_true (List.all_eq_true.mp hfirst c hc)
  have hsign : Exponent.readSign (c :: cs) = (none, c :: cs) := by
    unfold Exponent.readSign
    split
    · next heq => exact absurd (List.cons.inj heq).1 hplus
    · next heq => exact absurd (List.cons.inj heq).1 hminus
    · rfl
  have hword : ∀ (first : Char) (others : List Char), c.toLower ≠ first →
      (c :: cs).map Char.toLower ≠ first :: others :=
    fun _ _ hne heq => hne (List.cons.inj heq).1
  have hnan : (c :: cs).map Char.toLower ≠ "nan".toList := hword _ _ hn
  have hinf : (c :: cs).map Char.toLower ≠ "inf".toList := hword _ _ hi
  have hinfinity : (c :: cs).map Char.toLower ≠ "infinity".toList := hword _ _ hi
  unfold Numeral.convert?
  rw [hsign]
  dsimp only
  rw [if_neg hnan, if_neg (not_or.mpr ⟨hinf, hinfinity⟩), if_pos hmatch]
  rfl

/-! ## Tokens -/

namespace Cursor

/-- The next token is a number exactly if the text goes on with a literal. -/
theorem next_kind_eq_number_iff (cursor : Cursor) : cursor.next.1.kind = .number ↔
    ∃ w ∈ Numeral.literal.matches', w <+: cursor.rest.dropWhile Text.isBlank := by
  rw [← Literal.starts_iff]
  cases htext : cursor.rest.dropWhile Text.isBlank with
  | nil =>
    rw [(next_kind_eq_endOfFile_iff cursor).mpr htext]
    simp [Literal.starts]
  | cons c cs =>
    rw [next_of_cons htext]
    exact scan_kind_eq_number_iff c cs

/-- The characters of a number are those of the literal that is read there. -/
theorem lexeme_next_of_number {cursor : Cursor} (h : cursor.next.1.kind = .number) :
    let text := cursor.rest.dropWhile Text.isBlank
    Literal.starts text = true ∧
      cursor.next.1.lexeme.toList = (Literal.read text).1.chars := by
  cases htext : cursor.rest.dropWhile Text.isBlank with
  | nil =>
    rw [(next_kind_eq_endOfFile_iff cursor).mpr htext] at h
    cases h
  | cons c cs =>
    rw [next_of_cons htext] at h ⊢
    have hstarts := (scan_kind_eq_number_iff c cs).mp h
    exact ⟨hstarts, String.toList_ofList.trans (scan_of_starts hstarts)⟩

end Cursor

/-- Every token of a text stands for something: the characters of a number can be converted. -/
theorem Atom.ofToken?_eq {source : String} {token : Token} (htoken : token ∈ lex source) :
    Atom.ofToken? token = some (Atom.ofToken token) := by
  unfold Atom.ofToken? Atom.ofToken
  by_cases hkind : token.kind = .number
  · obtain ⟨l, hl, hchars, -⟩ := exists_literal htoken hkind
    rw [if_pos hkind, if_pos hkind, hchars, Numeral.convert?_chars hl]
    rfl
  · rw [if_neg hkind, if_neg hkind]

/-- Wherever in a text a token is read, it is a number exactly if the text goes on with a literal.
It is then the longest one, and is converted to a number without a sign. So at every place that a
parser can get to, all tokens that are left stand for something, and the leaves of what is read are
some of them. -/
theorem tokens_numbers (source : String) :
    (∀ pos,
      let cursor : Cursor := ⟨source.toList, pos⟩
      let text := cursor.rest.dropWhile Text.isBlank
      let token := cursor.next.1
      (token.kind = .number ↔ ∃ w ∈ Numeral.literal.matches', w <+: text) ∧
        (token.kind = .number →
          LongestPrefix Numeral.literal.matches' text token.lexeme.toList ∧
            ∃ x, Numeral.convert? token.lexeme.toList = some x ∧ x.IsNonnegative)) ∧
    ∀ parsers, Reachable source parsers → ∀ s ∈ parsers,
      (∀ token ∈ s.tokens, Atom.ofToken? token = some (Atom.ofToken token)) ∧
        ∀ p t s', Parser.read p s = .ok t s' → ∀ token ∈ t.leaves, token ∈ s.tokens := by
  constructor
  · intro pos cursor text token
    refine ⟨cursor.next_kind_eq_number_iff, fun hkind => ?_⟩
    obtain ⟨hstarts, hlexeme⟩ := Cursor.lexeme_next_of_number hkind
    show LongestPrefix _ text cursor.next.1.lexeme.toList ∧
      ∃ x, Numeral.convert? cursor.next.1.lexeme.toList = some x ∧ x.IsNonnegative
    rw [hlexeme]
    exact ⟨Literal.longestPrefix_read hstarts, _,
      Numeral.convert?_chars (Literal.wellFormed_read hstarts),
      Literal.isNonnegative_toBinary64 _⟩
  · intro parsers hparsers s hs
    obtain ⟨all, hlex, hall⟩ := lex_eq_append source
    obtain ⟨w, hw⟩ := hparsers.onTrack hlex hall s hs
    constructor
    · intro token htoken
      have hmem : token ∈ lex source := by
        rw [hw.tokens] at htoken
        rw [hlex]
        rcases List.mem_append.mp htoken with htoken | htoken
        · exact List.mem_append_left _ (hw.suffix.subset htoken)
        · exact List.mem_append_right _ htoken
      exact Atom.ofToken?_eq hmem
    · intro p t s' hread token htoken
      obtain ⟨ts, rest, hts, -, hreads⟩ := hw.read_eq_ok rfl hall hread
      have hmem : token ∈ ts := List.mem_of_mem_filter (hreads.leaves_perm.subset htoken)
      rw [hw.tokens, hts]
      simp [hmem]

/-- A point with a digit before it, and behind it an exponent. Then a point with a digit behind it,
and a letter without digits, which is a name. -/
theorem tokens_numbers_of_points :
    let source := "1.e5*.5e+"
    let first : Cursor := ⟨source.toList, 0⟩
    let second : Cursor := ⟨source.toList, 5⟩
    first.next.1 = ⟨.number, "1.e5", 0⟩ ∧ second.next.1 = ⟨.number, ".5", 5⟩ ∧
      LongestPrefix Numeral.literal.matches' "1.e5*.5e+".toList "1.e5".toList ∧
      LongestPrefix Numeral.literal.matches' ".5e+".toList ".5".toList ∧
      (∃ x, Numeral.convert? ".5".toList = some x ∧ x.IsNonnegative) ∧
      ∀ token ∈ (Lookahead.ofString source).tokens,
        Atom.ofToken? token = some (Atom.ofToken token) := by
  intro source first second
  have hfirst : first.next.1 = ⟨.number, "1.e5", 0⟩ := by decide
  have hsecond : second.next.1 = ⟨.number, ".5", 5⟩ := by decide
  have htext : first.rest.dropWhile Text.isBlank = "1.e5*.5e+".toList := by decide
  have htext' : second.rest.dropWhile Text.isBlank = ".5e+".toList := by decide
  obtain ⟨hnumbers, htokens⟩ := tokens_numbers source
  obtain ⟨hlongest, -⟩ := (hnumbers 0).2 (congrArg Token.kind hfirst)
  obtain ⟨hlongest', hvalue⟩ := (hnumbers 5).2 (congrArg Token.kind hsecond)
  rw [hfirst, htext] at hlongest
  rw [hsecond, htext'] at hlongest'
  rw [hsecond] at hvalue
  exact ⟨hfirst, hsecond, hlongest, hlongest', hvalue,
    (htokens _ .start _ (List.mem_singleton_self _)).1⟩

end LineCalc
