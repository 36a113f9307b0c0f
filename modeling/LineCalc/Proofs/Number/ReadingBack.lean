import LineCalc.Number.Native
import LineCalc.Proofs.Evaluation.Numeric
import LineCalc.Proofs.Lexing.Spacing
import LineCalc.Proofs.Number.Rounding
import LineCalc.Proofs.Parsing.Spelling

/-!
# Displayed numbers are read back

A machine is readable (`Numerics.Readable`) if it prints finite numbers positionally, with digits
that are converted back to the number, and negates them by their sign alone. Then the display of a
finite number has no exponent and is read as one number token behind at most one minus sign, and
its evaluation gives the number itself with the sign of a zero (`format_reads_back`). The shortest
digits are readable in this sense (`Native.readable`).
-/

namespace LineCalc

/-! ## Positional literals -/

/-- A literal of digits, and possibly a point with digits behind it. -/
structure Literal.IsPositional (l : Literal) : Prop where
  whole : l.whole ≠ [] ∧ ∀ c ∈ l.whole, c.isDigit
  fraction : ∀ cs ∈ l.fraction, cs ≠ [] ∧ ∀ c ∈ cs, c.isDigit
  exponent : l.exponent = none

namespace Literal

variable {l : Literal}

/-- A positional literal is well-formed. -/
theorem IsPositional.wellFormed (h : l.IsPositional) : l.WellFormed where
  whole := h.whole.2
  fraction := fun cs hcs => (h.fraction cs hcs).2
  ne_nil := List.append_ne_nil_of_left_ne_nil h.whole.1 _
  exponent := by simp [h.exponent]

/-- It starts with a digit, and so with no blank. -/
theorem IsPositional.exists_head (h : l.IsPositional) :
    ∃ c cs, l.chars = c :: cs ∧ c.isDigit ∧ Text.isBlank c = false := by
  obtain ⟨c, cs, hwhole⟩ := List.exists_cons_of_ne_nil h.whole.1
  have hdigit : c.isDigit := h.whole.2 c (by simp [hwhole])
  refine ⟨c, _, by rw [chars, hwhole]; rfl, hdigit, ?_⟩
  cases hblank : Text.isBlank c with
  | false => rfl
  | true => exact absurd hdigit (by simp [IsStop.not_isDigit (.inr (.inr hblank))])

/-- Its characters are digits and the point. -/
theorem IsPositional.mem_chars (h : l.IsPositional) {c : Char} (hc : c ∈ l.chars) :
    c.isDigit ∨ c = '.' := by
  rw [chars, h.exponent, Option.elim_none, List.append_nil] at hc
  rcases List.mem_append.mp hc with hc | hc
  · exact .inl (h.whole.2 c hc)
  · cases hfraction : l.fraction with
    | none => simp [hfraction] at hc
    | some ds =>
      rw [hfraction] at hc
      rcases List.mem_cons.mp hc with rfl | hc
      · exact .inr rfl
      · exact .inl ((h.fraction ds hfraction).2 c hc)

/-- A positional literal that is all of its text is read as one number token. -/
theorem IsPositional.lexes (h : l.IsPositional) :
    Lexes (fun ts => ∃ token, ts = [token] ∧ token.kind = .number ∧
      token.lexeme = String.ofList l.chars) l.chars [] := by
  obtain ⟨c, cs, hchars, -, hblank⟩ := h.exists_head
  have hstarts : starts (c :: cs) = true := by
    have hstarts := starts_chars h.wellFormed []
    rwa [List.append_nil, hchars] at hstarts
  have hscan : scan c (cs ++ []) = (.number, c :: cs) := by
    have hread := read_chars_nil h.wellFormed
    rw [hchars] at hread
    unfold scan
    rw [List.append_nil, if_pos hstarts, hread, hchars]
  rw [hchars]
  refine (Lexes.scanned hblank (congrArg Prod.snd hscan)).mono ?_
  rintro ts ⟨token, hts, hkind, hlexeme⟩
  exact ⟨token, hts, hkind.trans (congrArg Prod.fst hscan), hlexeme⟩

end Literal

namespace Decimal

/-- The digits of a decimal have its digits as their value, also behind zeros. -/
theorem ofDigitChars_padded (d : Decimal) (zeros : Nat) :
    Nat.ofDigitChars 10 (List.replicate zeros '0' ++ d.digitChars) 0 = d.digits := by
  rw [Nat.ofDigitChars_append, Nat.ofDigitChars_replicate_zero, Nat.mul_zero]
  exact Nat.ofDigitChars_ten_toDigits

/-- Digits and zeros are digits. -/
theorem isDigit_of_mem {d : Decimal} {zeros : Nat} {c : Char}
    (h : c ∈ d.digitChars ∨ c ∈ List.replicate zeros '0') : c.isDigit = true := by
  rcases h with h | h
  · exact Nat.isDigit_of_mem_toDigits (by decide) (by decide) h
  · rw [List.eq_of_mem_replicate h]
    rfl

/-- Without places behind the point, the power of ten is written as zeros. -/
theorem exists_positional_of_nonneg {d : Decimal} (h : 0 ≤ d.exponent) :
    ∃ l : Literal, l.IsPositional ∧ l.chars = d.positional ∧ l.value.code = d.code := by
  let zeros := List.replicate d.exponent.toNat '0'
  have hdigits : Nat.ofDigitChars 10 (d.digitChars ++ zeros ++ []) 0 =
      d.digits * 10 ^ d.exponent.toNat := by
    rw [List.append_nil, Nat.ofDigitChars_append, Nat.ofDigitChars_replicate_zero, digitChars,
      Nat.ofDigitChars_ten_toDigits, Nat.mul_comm]
  have hexponent : (0 : Int) + d.exponent.toNat = d.exponent := by omega
  refine ⟨⟨d.digitChars ++ zeros, none, none⟩, ⟨⟨?_, ?_⟩, by simp, rfl⟩, ?_, ?_⟩
  · exact List.append_ne_nil_of_left_ne_nil Nat.toDigits_ne_nil _
  · exact fun c hc => isDigit_of_mem (List.mem_append.mp hc)
  · simp [Literal.chars, positional, h, zeros]
  · show code ⟨Nat.ofDigitChars 10 (d.digitChars ++ zeros ++ []) 0, 0⟩ = d.code
    rw [hdigits, code_mul_pow, hexponent]

/-- With places behind the point, the digits are split before them, with zeros in front if there are
too few. -/
theorem exists_positional_of_neg {d : Decimal} (h : d.exponent < 0) :
    ∃ l : Literal, l.IsPositional ∧ l.chars = d.positional ∧ l.value.code = d.code := by
  let places := (-d.exponent).toNat
  let padded := List.replicate (places + 1 - d.digitChars.length) '0' ++ d.digitChars
  have hplaces : 0 < places := by omega
  have hlength : places + 1 ≤ padded.length := by
    simp only [padded, List.length_append, List.length_replicate]
    omega
  have hpadded : ∀ c ∈ padded, c.isDigit = true := fun c hc =>
    isDigit_of_mem (List.mem_append.mp hc).symm
  let split := padded.length - places
  have hfraction : (padded.drop split).length = places := by
    rw [List.length_drop]
    omega
  refine ⟨⟨padded.take split, some (padded.drop split), none⟩, ⟨⟨?_, ?_⟩, ?_, rfl⟩, ?_, ?_⟩
  · exact List.ne_nil_of_length_pos (by rw [List.length_take]; omega)
  · exact fun c hc => hpadded c (List.mem_of_mem_take hc)
  · intro cs hcs
    obtain rfl := Option.some.inj hcs
    exact ⟨List.ne_nil_of_length_pos (by omega), fun c hc => hpadded c (List.mem_of_mem_drop hc)⟩
  · have hneg : ¬0 ≤ d.exponent := by omega
    simp [Literal.chars, positional, hneg, padded, places, split]
  · have hvalue : (⟨padded.take split, some (padded.drop split), none⟩ : Literal).value = d := by
      show (⟨Nat.ofDigitChars 10 (padded.take split ++ padded.drop split) 0,
        0 - ((padded.drop split).length : Int)⟩ : Decimal) = d
      have hexponent : 0 - (places : Int) = d.exponent := by omega
      rw [List.take_append_drop, ofDigitChars_padded, hfraction, hexponent]
    rw [hvalue]

/-- What is displayed of a decimal is a positional literal of the same code. -/
theorem exists_positional (d : Decimal) :
    ∃ l : Literal, l.IsPositional ∧ l.chars = d.positional ∧ l.value.code = d.code := by
  by_cases h : 0 ≤ d.exponent
  · exact exists_positional_of_nonneg h
  · exact exists_positional_of_neg (by omega)

end Decimal

/-! ## Displays of numbers -/

/-- The tokens of a displayed number: a minus sign if it is negative, and a number. -/
structure Displays (negative : Bool) (digits : List Char) (signs : List Token) (number : Token) :
    Prop where
  signs : signs.map Token.kind = if negative then [.minus] else []
  kind : number.kind = .number
  lexeme : number.lexeme = String.ofList digits

/-- A positional literal behind a sign or none is read as these tokens. -/
theorem Literal.IsPositional.exists_displays {l : Literal} (h : l.IsPositional) (negative : Bool) :
    Lexes (fun ts => ∃ signs number, ts = signs ++ [number] ∧
      Displays negative l.chars signs number) (Binary64.sign negative ++ l.chars) [] := by
  cases negative with
  | false =>
    refine h.lexes.mono ?_
    rintro ts ⟨number, rfl, hkind, hlexeme⟩
    exact ⟨[], number, rfl, rfl, hkind, hlexeme⟩
  | true =>
    refine ((Lexes.operator .subtract (l.chars ++ [])).append h.lexes).mono ?_
    rintro ts ⟨_, _, rfl, ⟨sign, rfl, hsign, -⟩, number, rfl, hkind, hlexeme⟩
    refine ⟨[sign], number, rfl, ?_, hkind, hlexeme⟩
    rw [List.map_singleton, hsign]
    rfl

section Numerics

variable [Numerics]

/-- What displays need of the machine. -/
structure Numerics.Readable : Prop where
  /-- A finite number is printed as an optional minus sign, digits, and possibly a point with digits
  behind it. These are converted back to the number. -/
  print (negative : Bool) (code : Fin infinityCode) : ∃ (minus : Bool) (l : Literal),
    l.IsPositional ∧ (Numerics.print negative code).toList = Binary64.sign minus ++ l.chars ∧
      l.value.toBinary64 minus = .finite negative code
  /-- Negation changes the sign of a finite number, and nothing else. -/
  negate (negative : Bool) (code : Fin infinityCode) :
    Numerics.negate (.finite negative code) = .finite (!negative) code

/-- Tokens of this kind compute the number, with its sign. -/
theorem Displays.computes {negative : Bool} {digits : List Char} {signs : List Token}
    {number : Token} (h : Displays negative digits signs number) (hreadable : Numerics.Readable)
    {code : Fin infinityCode} (hcode : Literal.toBinary64 digits = .finite false code) :
    Computes .sum (signs ++ [number]) (.finite negative code) := by
  have hnumber : Computes .power [number] (.finite false code) := by
    have hvalue := Computes.powerOfOperand (.number h.kind)
    rwa [h.lexeme, String.toList_ofList, hcode] at hvalue
  have hsigned : Computes .signed (signs ++ [number]) (.finite negative code) := by
    cases negative with
    | false =>
      obtain rfl : signs = [] := List.map_eq_nil_iff.mp h.signs
      exact .signedOfPower hnumber
    | true =>
      obtain ⟨sign, rfl, hsign⟩ := List.map_eq_singleton_iff.mp h.signs
      have hnegated : Numerics.negate (.finite false code) = .finite true code :=
        hreadable.negate false code
      have hkind : sign.kind = Operator.subtract.kind := hsign
      rw [← hnegated]
      exact .signed hkind (rfl : Operator.subtract.unary? = _) (.signedOfPower hnumber)
  exact .sumOfProduct (.productOfSigned hsigned)

/-- What the tokens of a text compute is what its expression is evaluated to. -/
theorem Computes.exists_expression {source : String} {ts : List Token} {x : Binary64}
    (h : Computes .sum ts x) (hlex : lex source = ts ++ [Cursor.endToken source.toList])
    (β σ : Type) : ∃ expression : Expression β, Expression.ofString source = .ok expression ∧
      ∀ (host : Host β σ) (world : σ), expression.evaluate host world = .ok (.number x) world := by
  have hsymbols : SymbolsOf ts := by
    intro token htoken op hkind
    have hmem : token ∈ lex source := hlex ▸ List.mem_append_left _ htoken
    exact lexeme_eq_symbol hmem hkind
  have hstop := Words.not_continues_of_closes (w := []) (.inl rfl)
  obtain ⟨t, ht, hvalue⟩ := h.exists_reads hsymbols [] (.inr hstop.1)
  have hparse : parse source = .ok (t.map Atom.ofToken) :=
    (parse_eq_ok_iff hlex (kind_ne_of_lex_eq hlex) _).mpr ⟨t, ht, rfl⟩
  refine ⟨⟨source, t.map Atom.ofToken, Builtin.operatorTable⟩, ?_, fun host world => ?_⟩
  · rw [Expression.ofString, hparse]
    rfl
  · exact congrFun (hvalue host _ Builtin.operatorTable_bindsOperators) world

namespace Binary64

omit [Numerics] in
/-- Only the finite number of this sign and this code is made of them. -/
theorem ofCode_eq_finite {minus negative : Bool} {n : Nat} {code : Fin infinityCode}
    (h : ofCode minus n = .finite negative code) : minus = negative ∧ n = code := by
  by_cases hn : n < infinityCode
  · rw [ofCode_of_lt hn] at h
    obtain ⟨hsign, hcode⟩ := Binary64.finite.inj h
    exact ⟨hsign, congrArg Fin.val hcode⟩
  · simp [ofCode, hn] at h

/-- The display of a finite number is a positional literal behind its sign, and the literal has the
value of the magnitude. -/
theorem exists_format (h : Numerics.Readable) (negative : Bool) (code : Fin infinityCode) :
    ∃ l : Literal, l.IsPositional ∧
      (finite negative code).format.toList = sign negative ++ l.chars ∧
      Literal.toBinary64 l.chars = .finite false code := by
  obtain ⟨minus, l, hl, hchars, hvalue⟩ := h.print negative code
  -- The sign that is printed is that of the number, since it is converted too.
  obtain ⟨rfl, hcode⟩ := ofCode_eq_finite hvalue
  refine ⟨l, hl, hchars, ?_⟩
  unfold Literal.toBinary64 Decimal.toBinary64
  rw [Literal.read_chars_nil hl.wellFormed, hcode, ofCode_of_lt code.isLt]

/-- The tokens of the display of a finite number, and what they compute. -/
theorem lex_format (h : Numerics.Readable) (negative : Bool) (code : Fin infinityCode) :
    let x : Binary64 := .finite negative code
    ∃ l : Literal, l.IsPositional ∧ x.format.toList = sign negative ++ l.chars ∧
      ∃ signs number, lex x.format = signs ++ [number, Cursor.endToken x.format.toList] ∧
        Displays negative l.chars signs number ∧
        Computes .sum (signs ++ [number]) x := by
  intro x
  obtain ⟨l, hl, hchars, hvalue⟩ := exists_format h negative code
  have hlexes := hl.exists_displays negative
  rw [← hchars] at hlexes
  obtain ⟨ts, hlex, signs, number, rfl, hdisplays⟩ := hlexes.lex_eq
  exact ⟨l, hl, hchars, signs, number, by rw [hlex, List.append_assoc]; rfl, hdisplays,
    hdisplays.computes h hvalue⟩

/-- A finite number is displayed without an exponent, as digits that are read as one number token
behind at most one minus sign. The expression that the display spells is evaluated to this very
number, whose sign is kept even if it is a zero. So no two finite numbers are displayed alike. -/
theorem format_reads_back (h : Numerics.Readable) (negative : Bool) (code : Fin infinityCode) :
    let x : Binary64 := .finite negative code
    (∃ l : Literal, l.IsPositional ∧ x.format.toList = sign negative ++ l.chars ∧
      'e' ∉ x.format.toList ∧ 'E' ∉ x.format.toList ∧
      ∃ signs number, lex x.format = signs ++ [number, Cursor.endToken x.format.toList] ∧
        Displays negative l.chars signs number) ∧
    (∀ β σ : Type, ∃ expression : Expression β, Expression.ofString x.format = .ok expression ∧
      ∀ (host : Host β σ) (world : σ),
        expression.evaluate host world = .ok (.number x) world) ∧
    ∀ negative' code', (finite negative' code').format = x.format → finite negative' code' = x := by
  intro x
  obtain ⟨l, hl, hchars, signs, number, hlex, hdisplays, hcomputes⟩ := lex_format h negative code
  have hletter : ∀ c ∈ x.format.toList, c = '-' ∨ c.isDigit ∨ c = '.' := by
    intro c hc
    rw [hchars] at hc
    rcases List.mem_append.mp hc with hc | hc
    · cases negative <;> simp_all [sign]
    · exact .inr (hl.mem_chars hc)
  have hexpression := hcomputes.exists_expression (by rw [hlex, List.append_assoc]; rfl)
  refine ⟨⟨l, hl, hchars, ?_, ?_, signs, number, hlex, hdisplays⟩, hexpression, ?_⟩
  · exact fun hc => absurd (hletter 'e' hc) (by decide)
  · exact fun hc => absurd (hletter 'E' hc) (by decide)
  · intro negative' code' hformat
    obtain ⟨-, -, -, signs', number', hlex', -, hcomputes'⟩ := lex_format h negative' code'
    -- The same text spells one expression, and that has one value.
    obtain ⟨expression, hspelled, hvalue⟩ := hexpression Empty Unit
    obtain ⟨other, hspelled', hvalue'⟩ := hcomputes'.exists_expression
      (by rw [hlex', List.append_assoc]; rfl) Empty Unit
    rw [hformat, hspelled] at hspelled'
    obtain rfl := Except.ok.inj hspelled'
    have hboth := (hvalue' CommandLine.noHost ()).symm.trans (hvalue CommandLine.noHost ())
    cases hboth
    rfl

end Binary64

end Numerics

/-! ## The shortest digits -/

open Native

/-- The shortest digits that read back as a number are those of a readable machine. -/
theorem Native.readable : Numerics.Readable where
  print negative code := by
    obtain ⟨l, hl, hchars, hcode⟩ := (Binary64.shortest code).exists_positional
    refine ⟨negative, l, hl, ?_, ?_⟩
    · rw [hchars]
      exact String.toList_ofList
    · unfold Decimal.toBinary64
      rw [hcode, Binary64.code_shortest code.isLt, Binary64.ofCode_of_lt code.isLt]
  negate _ _ := rfl

namespace Binary64

/-- Minus a tenth, which is no double-precision number: what is displayed so is the nearest one. -/
theorem format_reads_back_tenth :
    let x : Binary64 := .finite true ⟨0x3FB999999999999A, by decide⟩
    x.format = "-0.1" ∧
      (∃ expression : Expression Empty, Expression.ofString "-0.1" = .ok expression ∧
        expression.evaluate CommandLine.noHost () = .ok (.number x) ()) ∧
      ∃ code, (finite true code).format = "-0.1" ∧ finite true code = x := by
  intro x
  have hformat : x.format = "-0.1" := by decide +kernel
  obtain ⟨-, hvalue, hsame⟩ := format_reads_back readable true ⟨0x3FB999999999999A, by decide⟩
  obtain ⟨expression, hspelled, hevaluates⟩ := hvalue Empty Unit
  have hspelled : Expression.ofString x.format = .ok expression := hspelled
  rw [hformat] at hspelled
  exact ⟨hformat, ⟨expression, hspelled, hevaluates _ _⟩, _, hformat, hsame true _ rfl⟩

example : (finite false ⟨0x444B1AE4D6E2EF50, by decide⟩).format = "1000000000000000000000" := by
  decide +kernel

end Binary64

end LineCalc
