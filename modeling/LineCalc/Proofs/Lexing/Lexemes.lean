import LineCalc.Operator
import LineCalc.Proofs.Lexing.Stream

/-!
# What tokens are made of

Every token but the last is scanned from the characters at its place (`Cursor.exists_scan`), so its
kind tells what its characters are. Those of a number are a decimal literal from the first to the
last, with a digit in it (`exists_literal`), so that there is always a value to convert them to.
Those of an operator are its symbol (`lexeme_eq_symbol`). And the places of tokens ascend
(`lex_ascending`).
-/

namespace LineCalc

/-! ## Literals -/

/-- An exponent with a letter, possibly a sign, and digits. -/
structure Exponent.WellFormed (e : Exponent) : Prop where
  letter : e.letter = 'e' ∨ e.letter = 'E'
  sign : ∀ c ∈ e.sign, c = '+' ∨ c = '-'
  ne_nil : e.digits ≠ []
  digits : ∀ c ∈ e.digits, c.isDigit

/-- A literal with a digit on one side of its point at least. -/
structure Literal.WellFormed (l : Literal) : Prop where
  whole : ∀ c ∈ l.whole, c.isDigit
  fraction : ∀ cs ∈ l.fraction, ∀ c ∈ cs, c.isDigit
  ne_nil : l.whole ++ l.fraction.getD [] ≠ []
  exponent : ∀ e ∈ l.exponent, e.WellFormed

/-- What follows a literal does not go on with it: there is no digit, no first point and no first
exponent. -/
structure Literal.EndsBefore (l : Literal) (rest : List Char) : Prop where
  digit : ∀ c ∈ rest.head?, c.isDigit = false
  point : l.fraction = none → l.exponent = none → ∀ c ∈ rest.head?, c ≠ '.'
  exponent : l.exponent = none → (Exponent.read rest).1 = none

/-- Characters with a property that none of the kind follows are all that is taken. -/
theorem takeWhile_append_of_head {p : Char → Bool} {ds rest : List Char} (hds : ∀ c ∈ ds, p c)
    (hrest : ∀ c ∈ rest.head?, p c = false) :
    (ds ++ rest).takeWhile p = ds ∧ (ds ++ rest).dropWhile p = rest := by
  rw [List.takeWhile_append_of_pos hds, List.dropWhile_append_of_pos hds]
  cases rest with
  | nil => simp
  | cons c cs => simp [hrest c rfl]

/-- Behind the characters with a property that are taken there is no other. -/
theorem head_dropWhile (p : Char → Bool) (cs : List Char) :
    ∀ c ∈ (cs.dropWhile p).head?, p c = false := by
  intro c hc
  have hhead := List.head?_dropWhile_not p cs
  rw [Option.mem_def.mp hc] at hhead
  exact hhead

/-- If nothing is left behind the characters with a property, all have it. -/
theorem forall_of_dropWhile_eq_nil {p : Char → Bool} {cs : List Char}
    (h : cs.dropWhile p = []) : ∀ c ∈ cs, p c = true := by
  have happend := List.takeWhile_append_dropWhile (p := p) (l := cs)
  rw [h, List.append_nil] at happend
  rw [← happend]
  exact List.all_eq_true.mp List.all_takeWhile

namespace Exponent

/-- A sign before digits is read. -/
theorem readSign_chars {e : Exponent} (h : e.WellFormed) (rest : List Char) :
    readSign (e.sign.toList ++ (e.digits ++ rest)) = (e.sign, e.digits ++ rest) := by
  obtain ⟨letter, sign, digits⟩ := e
  cases sign with
  | some c => rcases h.sign c rfl with rfl | rfl <;> rfl
  | none =>
    obtain ⟨d, ds, rfl⟩ : ∃ d ds, digits = d :: ds := List.exists_cons_of_ne_nil h.ne_nil
    -- A digit is no sign.
    have hd : d.isDigit = true := h.digits d List.mem_cons_self
    show readSign (d :: (ds ++ rest)) = (none, d :: (ds ++ rest))
    unfold readSign
    split
    · next heq => exact absurd ((List.cons.inj heq).1 ▸ hd) (by decide)
    · next heq => exact absurd ((List.cons.inj heq).1 ▸ hd) (by decide)
    · rfl

/-- The characters of an exponent are read as it before anything but a digit. -/
theorem read_chars {e : Exponent} (h : e.WellFormed) {rest : List Char}
    (hrest : ∀ c ∈ rest.head?, c.isDigit = false) : read (e.chars ++ rest) = (some e, rest) := by
  obtain ⟨htake, hdrop⟩ := takeWhile_append_of_head h.digits hrest
  simp only [chars, List.cons_append, List.append_assoc, read, readSign_chars h, htake, hdrop]
  rw [if_pos ⟨h.letter, h.ne_nil⟩]

/-- An exponent that is read is well-formed. -/
theorem wellFormed_read {cs : List Char} {e : Exponent} (h : (read cs).1 = some e) :
    e.WellFormed := by
  unfold read at h
  split at h
  · cases h
  · next c after =>
    dsimp only at h
    split at h
    · next hc =>
      cases h
      refine ⟨hc.1, ?_, hc.2, List.all_eq_true.mp List.all_takeWhile⟩
      unfold readSign
      split <;> simp
    · cases h

/-- An exponent is read exactly where the characters of one stand. -/
theorem read_eq_none_iff (cs : List Char) :
    (read cs).1 = none ↔ ∀ e : Exponent, e.WellFormed → ¬e.chars <+: cs := by
  constructor
  · rintro hnone e he ⟨rest, rfl⟩
    obtain ⟨d, ds, hdigits⟩ := List.exists_cons_of_ne_nil he.ne_nil
    have hd : d.isDigit = true := he.digits d (by simp [hdigits])
    -- The first digit is taken at least.
    have htake : (e.digits ++ rest).takeWhile Char.isDigit ≠ [] := by simp [hdigits, hd]
    simp only [chars, List.cons_append, List.append_assoc, read, readSign_chars he] at hnone
    rw [if_pos ⟨he.letter, htake⟩] at hnone
    cases hnone
  · intro h
    cases hread : (read cs).1 with
    | none => rfl
    | some e =>
      have happend := read_append cs
      rw [hread] at happend
      exact absurd ⟨_, happend⟩ (h e (wellFormed_read hread))

/-- Where no exponent is read, everything is left. -/
theorem read_of_none {cs : List Char} (h : (read cs).1 = none) : (read cs).2 = cs := by
  have happend := read_append cs
  rw [h] at happend
  exact happend

/-- No digit is left behind an exponent. -/
theorem head_read {cs : List Char} {e : Exponent} (h : (read cs).1 = some e) :
    ∀ c ∈ (read cs).2.head?, c.isDigit = false := by
  unfold read at h ⊢
  split at h
  · cases h
  · dsimp only at h ⊢
    split at h
    · next hc =>
      rw [if_pos hc]
      exact head_dropWhile Char.isDigit _
    · cases h

end Exponent

namespace Literal

section

variable {l : Literal} {rest : List Char} (h : l.WellFormed) (hrest : l.EndsBefore rest)
include h hrest

/-- Where the exponent starts, or the literal ends, there is no digit, and no point if there has
been none. -/
theorem head_exponent : ∀ c ∈ (l.exponent.elim [] Exponent.chars ++ rest).head?,
    c.isDigit = false ∧ (l.fraction = none → c ≠ '.') := by
  cases hexponent : l.exponent with
  | none => exact fun c hc => ⟨hrest.digit c hc, fun hnone => hrest.point hnone hexponent c hc⟩
  | some e =>
    intro c hc
    obtain rfl : e.letter = c := by simpa [Exponent.chars] using hc
    rcases (h.exponent e hexponent).letter with he | he <;> simp [he, Char.isDigit]

/-- The characters of the fraction are read as it, and those of the exponent are left. -/
theorem readFraction_chars :
    readFraction (l.fraction.elim [] ('.' :: ·) ++ (l.exponent.elim [] Exponent.chars ++ rest)) =
      (l.fraction, l.exponent.elim [] Exponent.chars ++ rest) := by
  have hhead := head_exponent h hrest
  generalize l.exponent.elim [] Exponent.chars ++ rest = after at hhead ⊢
  cases hfraction : l.fraction with
  | some ds =>
    obtain ⟨htake, hdrop⟩ := takeWhile_append_of_head (h.fraction ds hfraction)
      fun c hc => (hhead c hc).1
    show (some ((ds ++ after).takeWhile Char.isDigit), (ds ++ after).dropWhile Char.isDigit) = _
    rw [htake, hdrop]
  | none =>
    show readFraction after = (none, after)
    unfold readFraction
    split
    · exact absurd rfl ((hhead '.' rfl).2 hfraction)
    · rfl

/-- The characters of a literal are read as it before what does not go on with it. -/
theorem read_chars : read (l.chars ++ rest) = (l, rest) := by
  -- Behind the digits before the point come the point, the exponent or the end.
  have hhead : ∀ c ∈ (l.fraction.elim [] ('.' :: ·) ++
      (l.exponent.elim [] Exponent.chars ++ rest)).head?, c.isDigit = false := by
    cases hfraction : l.fraction with
    | some ds => simp [Char.isDigit]
    | none => exact fun c hc => (head_exponent h hrest c hc).1
  obtain ⟨htake, hdrop⟩ := takeWhile_append_of_head h.whole hhead
  have hexponent : Exponent.read (l.exponent.elim [] Exponent.chars ++ rest) =
      (l.exponent, rest) := by
    cases hexponent : l.exponent with
    | none =>
      have hnone := hrest.exponent hexponent
      exact Prod.ext hnone (Exponent.read_of_none hnone)
    | some e => exact Exponent.read_chars (h.exponent e hexponent) hrest.digit
  unfold read chars
  rw [List.append_assoc, List.append_assoc]
  simp only [htake, hdrop, readFraction_chars h hrest, hexponent]

end

/-- The characters of a literal that is all of its text are read as it. -/
theorem read_chars_nil {l : Literal} (h : l.WellFormed) : read l.chars = (l, []) := by
  have hread := read_chars h (⟨by simp, by simp, fun _ => rfl⟩ : l.EndsBefore [])
  rwa [List.append_nil] at hread

/-- What is left behind a literal does not go on with it. -/
theorem endsBefore_read (cs : List Char) : (read cs).1.EndsBefore (read cs).2 := by
  show EndsBefore ⟨cs.takeWhile Char.isDigit, (readFraction (cs.dropWhile Char.isDigit)).1,
    (Exponent.read (readFraction (cs.dropWhile Char.isDigit)).2).1⟩
    (Exponent.read (readFraction (cs.dropWhile Char.isDigit)).2).2
  have hdigits := head_dropWhile Char.isDigit cs
  generalize cs.dropWhile Char.isDigit = after at hdigits ⊢
  have hfraction : ∀ c ∈ (readFraction after).2.head?,
      c.isDigit = false ∧ ((readFraction after).1 = none → c ≠ '.') := by
    unfold readFraction
    split
    · exact fun c hc => ⟨head_dropWhile Char.isDigit _ c hc, nofun⟩
    · next hpoint =>
      refine fun c hc => ⟨hdigits c hc, fun _ heq => ?_⟩
      subst heq
      obtain ⟨cs, hcs⟩ := List.head?_eq_some_iff.mp hc
      exact hpoint cs hcs
  cases hexponent : (Exponent.read (readFraction after).2).1 with
  | some e => exact ⟨Exponent.head_read hexponent, nofun, nofun⟩
  | none =>
    rw [Exponent.read_of_none hexponent]
    exact ⟨fun c hc => (hfraction c hc).1, fun hnone _ c hc => (hfraction c hc).2 hnone,
      fun _ => hexponent⟩

/-- A literal starts where its characters stand. -/
theorem starts_chars {l : Literal} (h : l.WellFormed) (rest : List Char) :
    starts (l.chars ++ rest) = true := by
  obtain ⟨whole, fraction, exponent⟩ := l
  cases whole with
  | cons d ds =>
    have hd : d.isDigit = true := h.whole d List.mem_cons_self
    have hpoint : d ≠ '.' := by
      rintro rfl
      exact absurd hd (by decide)
    simp [chars, starts, hpoint, hd]
  | nil =>
    -- Without digits before the point there are some behind it.
    obtain ⟨d, ds, rfl⟩ : ∃ d ds, fraction = some (d :: ds) := by
      have hne := h.ne_nil
      cases fraction with
      | none => exact absurd rfl hne
      | some cs =>
        obtain ⟨d, ds, rfl⟩ := List.exists_cons_of_ne_nil hne
        exact ⟨d, ds, rfl⟩
    exact h.fraction _ rfl d List.mem_cons_self

/-- A literal that is read where one starts is well-formed. -/
theorem wellFormed_read {cs : List Char} (h : starts cs = true) : (read cs).1.WellFormed where
  whole := List.all_eq_true.mp List.all_takeWhile
  fraction := by
    show ∀ ds ∈ (readFraction (cs.dropWhile Char.isDigit)).1, _
    unfold readFraction
    split
    · rintro ds hds
      obtain rfl := Option.some.inj hds
      exact List.all_eq_true.mp List.all_takeWhile
    · simp
  ne_nil := by
    unfold starts at h
    split at h
    · have hpoint : Char.isDigit '.' = false := by decide
      simp [read, readFraction, List.dropWhile, List.takeWhile, hpoint, h]
    · simp [read, List.takeWhile, h]
    · simp at h
  exponent := fun _ he => Exponent.wellFormed_read he

end Literal

/-! ## Tokens and their characters -/

namespace Cursor

/-- Every token but the last is scanned somewhere. -/
theorem exists_scan (cursor : Cursor) : ∀ token ∈ cursor.tokens, token.kind ≠ .endOfFile →
    ∃ c cs, token.kind = (scan c cs).1 ∧ token.lexeme = String.ofList (scan c cs).2 := by
  induction cursor using Cursor.induction with
  | atEnd cursor hend =>
    intro token htoken hkind
    rw [tokens_eq, if_pos hend, List.mem_singleton] at htoken
    exact absurd (htoken ▸ hend) hkind
  | step cursor hend ih =>
    intro token htoken hkind
    rw [tokens_eq, if_neg hend, List.mem_cons] at htoken
    rcases htoken with rfl | htoken
    · rw [Ne, next_kind_eq_endOfFile_iff] at hend
      obtain ⟨c, cs, hcs⟩ := List.exists_cons_of_ne_nil hend
      rw [next_of_cons hcs]
      exact ⟨c, cs, rfl, rfl⟩
    · exact ih token htoken hkind

/-- The tokens before the end of the text come one behind the other. -/
theorem exists_ascending (cursor : Cursor) : ∃ w, cursor.tokens = w ++ [endToken cursor.source] ∧
    (∀ token ∈ w, cursor.pos ≤ token.offset) ∧
    w.Pairwise fun first second => first.offset < second.offset := by
  induction cursor using Cursor.induction with
  | atEnd cursor hend =>
    refine ⟨[], ?_, by simp, .nil⟩
    rw [tokens_of_blank ((next_kind_eq_endOfFile_iff cursor).mp hend), List.nil_append]
  | step cursor hend ih =>
    obtain ⟨w, hw, hbehind, hascending⟩ := ih
    have htokens : cursor.tokens = cursor.next.1 :: w ++ [endToken cursor.source] := by
      rw [tokens_eq, if_neg hend, hw, next_source, List.cons_append]
    rw [Ne, next_kind_eq_endOfFile_iff] at hend
    obtain ⟨c, cs, hcs⟩ := List.exists_cons_of_ne_nil hend
    have hsome := List.length_pos_iff.mpr (scan_ne_nil c cs)
    rw [next_of_cons hcs] at hbehind htokens
    -- The next place is behind the characters of the token, of which there is one at least.
    have hnext : ∀ token ∈ w, cursor.pos + (cursor.rest.takeWhile Text.isBlank).length +
        (scan c cs).2.length ≤ token.offset := hbehind
    refine ⟨_, htokens, fun token htoken => ?_, .cons (fun token htoken => ?_) hascending⟩
    · rcases List.mem_cons.mp htoken with rfl | htoken
      · exact Nat.le_add_right _ _
      · have := hnext token htoken
        omega
    · have := hnext token htoken
      show cursor.pos + (cursor.rest.takeWhile Text.isBlank).length < token.offset
      omega

end Cursor

/-- The tokens before the end of a text come one behind the other. -/
theorem lex_ascending {source : String} {ts : List Token}
    (hlex : lex source = ts ++ [Cursor.endToken source.toList]) :
    ts.Pairwise fun first second => first.offset < second.offset := by
  obtain ⟨w, hw, -, hascending⟩ := (Cursor.ofString source).exists_ascending
  obtain rfl := List.append_cancel_right (hlex.symm.trans hw)
  exact hascending

/-- A token is a number whose characters are read as a literal that starts there, or a name, or the
symbol of its kind, or unknown. -/
theorem scan_cases (c : Char) (cs : List Char) :
    (Literal.starts (c :: cs) = true ∧ scan c cs = (.number, (Literal.read (c :: cs)).1.chars)) ∨
      (∃ chars, scan c cs = (.identifier, chars)) ∨
      (∃ kind, TokenKind.ofSymbol? c = some kind ∧ scan c cs = (kind, [c])) ∨
      ∃ chars, scan c cs = (.unknown, chars) := by
  unfold scan
  split
  · next h => exact .inl ⟨h, rfl⟩
  · split
    · exact .inr (.inl ⟨_, rfl⟩)
    · split
      · next kind h => exact .inr (.inr (.inl ⟨kind, h, rfl⟩))
      · exact .inr (.inr (.inr ⟨_, rfl⟩))

/-- The kind of a symbol tells its characters. -/
theorem TokenKind.showsLexeme_of_ofSymbol? {c : Char} {kind : TokenKind}
    (h : TokenKind.ofSymbol? c = some kind) : kind.showsLexeme = false := by
  unfold TokenKind.ofSymbol? at h
  split at h <;> cases h <;> rfl

/-- A token is a number exactly where a literal starts. -/
theorem scan_kind_eq_number_iff (c : Char) (cs : List Char) :
    (scan c cs).1 = .number ↔ Literal.starts (c :: cs) = true := by
  constructor
  · intro h
    rcases scan_cases c cs with ⟨hstarts, -⟩ | ⟨_, hscan⟩ | ⟨kind, hsymbol, hscan⟩ | ⟨_, hscan⟩
    · exact hstarts
    · simp [hscan] at h
    · rw [hscan] at h
      obtain rfl : kind = .number := h
      cases TokenKind.showsLexeme_of_ofSymbol? hsymbol
    · simp [hscan] at h
  · intro h
    unfold scan
    rw [if_pos h]

/-- Where a literal starts, its characters are taken. -/
theorem scan_of_starts {c : Char} {cs : List Char} (h : Literal.starts (c :: cs) = true) :
    (scan c cs).2 = (Literal.read (c :: cs)).1.chars := by
  unfold scan
  rw [if_pos h]

/-- The characters of a number are a literal, and all of them are read as it. -/
theorem exists_literal {source : String} {token : Token} (htoken : token ∈ lex source)
    (hkind : token.kind = .number) :
    ∃ l : Literal, l.WellFormed ∧ token.lexeme.toList = l.chars ∧
      Literal.read token.lexeme.toList = (l, []) := by
  obtain ⟨c, cs, hscanned, hlexeme⟩ :=
    (Cursor.ofString source).exists_scan token htoken (by simp [hkind])
  have hstarts := (scan_kind_eq_number_iff c cs).mp (hscanned.symm.trans hkind)
  have hwell := Literal.wellFormed_read hstarts
  have hchars : token.lexeme.toList = (Literal.read (c :: cs)).1.chars := by
    rw [hlexeme, String.toList_ofList, scan_of_starts hstarts]
  exact ⟨_, hwell, hchars, by rw [hchars, Literal.read_chars_nil hwell]⟩

/-- A token whose kind tells its characters is the one character of this kind. -/
theorem exists_symbol {source : String} {token : Token} (htoken : token ∈ lex source)
    (hkind : token.kind.showsLexeme = false) (hend : token.kind ≠ .endOfFile) :
    ∃ c, TokenKind.ofSymbol? c = some token.kind ∧ token.lexeme = String.singleton c := by
  obtain ⟨c, cs, hscanned, hlexeme⟩ := (Cursor.ofString source).exists_scan token htoken hend
  rw [hscanned] at hkind ⊢
  rcases scan_cases c cs with ⟨-, hscan⟩ | ⟨_, hscan⟩ | ⟨kind, hsymbol, hscan⟩ | ⟨_, hscan⟩
  · simp [hscan, TokenKind.showsLexeme] at hkind
  · simp [hscan, TokenKind.showsLexeme] at hkind
  · rw [hscan] at hlexeme
    exact ⟨c, by rw [hsymbol, hscan], hlexeme⟩
  · simp [hscan, TokenKind.showsLexeme] at hkind

/-- The kind of the symbol of an operator. -/
def Operator.kind : Operator → TokenKind
  | .add => .plus
  | .subtract => .minus
  | .multiply => .star
  | .divide => .slash
  | .remainder => .percent
  | .power => .caret

/-- The kinds of operators are those of their symbols. -/
theorem TokenKind.exists_operator {kind : TokenKind} (h : kind.isOperator) :
    ∃ op : Operator, kind = op.kind := by
  cases kind with
  | plus => exact ⟨.add, rfl⟩
  | minus => exact ⟨.subtract, rfl⟩
  | star => exact ⟨.multiply, rfl⟩
  | slash => exact ⟨.divide, rfl⟩
  | percent => exact ⟨.remainder, rfl⟩
  | caret => exact ⟨.power, rfl⟩
  | _ => simp [isOperator, isSign, joinsFactors] at h

/-- The characters of an operator are its symbol. -/
theorem lexeme_eq_symbol {source : String} {token : Token} (htoken : token ∈ lex source)
    {op : Operator} (hkind : token.kind = op.kind) : token.lexeme = op.symbol := by
  have hshown : token.kind.showsLexeme = false := by
    rw [hkind]
    cases op <;> rfl
  have hend : token.kind ≠ .endOfFile := by
    rw [hkind]
    cases op <;> simp [Operator.kind]
  obtain ⟨c, hsymbol, hlexeme⟩ := exists_symbol htoken hshown hend
  rw [hlexeme]
  rw [hkind] at hsymbol
  -- The character of a kind is the symbol of the operator of this kind.
  unfold TokenKind.ofSymbol? at hsymbol
  split at hsymbol <;> cases op <;> first | rfl | cases hsymbol

end LineCalc
