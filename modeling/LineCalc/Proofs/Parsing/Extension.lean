import LineCalc.Proofs.Lexing.Boundary
import LineCalc.Proofs.Parsing.Acceptance
import LineCalc.Proofs.Parsing.Transfer

/-!
# Expressions that go on

A sum is appended to a text whose last token ends an operand. Nothing that binds closer than a sign
gets across the boundary, for a sign behind the end of an operand joins terms unless a parenthesis
closes around it (`Derives.covered`). So if the longer text is parsed, it is parsed to a sum, and
the shorter one is the left operand of it (`parse_append_one`).

But the signs of the shorter text now have more tokens behind them, and they are read by what these
are. Of the end of the text they are asked one thing: whether an operator other than a sign and one
factor come before it. Where they do not (`SignsFixed`), factors end at the same places with and
without what is appended (`Extensible.seam`), and so the shorter text is read as it was.
-/

namespace LineCalc

open LineCalc.Parser (Production)

/-! ## What a sign joins -/

/-- A token that ends an operand wherever it stands. -/
def EndsOperand (token : Token) : Prop :=
  token.kind = .number ∨ token.kind = .identifier ∨ token.kind = .rightParenthesis

/-- A token that ends an operand is no operator. -/
theorem EndsOperand.not_isOperator {token : Token} (h : EndsOperand token) :
    ¬token.kind.isOperator := by
  rcases h with h | h | h <;>
    simp [h, TokenKind.isOperator, TokenKind.isSign, TokenKind.joinsFactors]

/-- The last of some tokens ends an operand. -/
def EndsWithOperand (w : List Token) : Prop :=
  ∃ ts final, w = ts ++ [final] ∧ EndsOperand final

namespace EndsWithOperand

variable {us v : List Token}

/-- The last token is still the last one of the end. -/
theorem right (h : EndsWithOperand (us ++ v)) (hv : v ≠ []) : EndsWithOperand v := by
  obtain ⟨ts, final, hts, hfinal⟩ := h
  obtain hnil | ⟨vs, hvs, -⟩ := List.suffix_concat_iff.mp ⟨us, hts⟩
  · exact absurd hnil hv
  · exact ⟨vs, final, hvs, hfinal⟩

/-- The last token is no sign, so a sign has tokens behind it. -/
theorem ne_nil_of_sign {sign : Token} (h : EndsWithOperand (us ++ sign :: v))
    (hsign : sign.kind.isSign) : v ≠ [] := by
  rintro rfl
  obtain ⟨ts, final, hts, hfinal⟩ := h
  obtain rfl : sign = final := by simpa using (List.append_inj' hts rfl).2
  exact hfinal.not_isOperator (isOperator_of_kind (.inl (.inl hsign)))

/-- What is behind a sign ends with an operand as well. -/
theorem behind {sign : Token} (h : EndsWithOperand (us ++ sign :: v)) (hsign : sign.kind.isSign) :
    EndsWithOperand v := by
  have hv := h.ne_nil_of_sign hsign
  rw [List.append_cons] at h
  exact h.right hv

end EndsWithOperand

/-- Behind every sign that stands behind the end of an operand comes a closing parenthesis. -/
def Covered (ts : List Token) : Prop :=
  ∀ us final sign vs, ts = us ++ final :: sign :: vs → EndsOperand final → sign.kind.isSign →
    ∃ closing ∈ vs, closing.kind = .rightParenthesis

namespace Covered

/-- Behind a single token there is no sign. -/
theorem singleton (token : Token) : Covered [token] := by
  rintro (_ | ⟨_, us⟩) final sign vs hts <;> simp at hts

/-- Before a closing parenthesis everything is covered. -/
theorem concat (ts : List Token) {closing : Token} (hc : closing.kind = .rightParenthesis) :
    Covered (ts ++ [closing]) := by
  intro us final sign vs hts hfinal hsign
  rcases List.eq_nil_or_concat vs with rfl | ⟨vs, last, rfl⟩
  · -- The last token is no sign.
    have hlast : ts ++ [closing] = us ++ [final] ++ [sign] := by simp [hts]
    obtain rfl : closing = sign := by simpa using (List.append_inj' hlast rfl).2
    simp [hc, TokenKind.isSign] at hsign
  · have hlast : ts ++ [closing] = (us ++ final :: sign :: vs) ++ [last] := by simp [hts]
    obtain rfl : closing = last := by simpa using (List.append_inj' hlast rfl).2
    exact ⟨closing, by simp, hc⟩

/-- A sign that starts something is behind no operand of it. -/
theorem cons {sign : Token} {ts : List Token} (h : Covered ts) (hsign : sign.kind.isSign) :
    Covered (sign :: ts) := by
  intro us final sign' vs hts hfinal hsign'
  cases us with
  | nil =>
    obtain ⟨rfl, -⟩ := List.cons.inj hts
    exact absurd (isOperator_of_kind (.inl (.inl hsign))) hfinal.not_isOperator
  | cons first us => exact h us final sign' vs (List.cons.inj hts).2 hfinal hsign'

/-- Operands with an operator other than a sign between them are covered if both are. -/
theorem join {operator : Token} {ts us : List Token} (h : Covered ts) (hus : Covered us)
    (hkind : operator.kind.joinsFactors ∨ operator.kind = .caret) :
    Covered (ts ++ operator :: us) := by
  have ho : operator.kind.isOperator := isOperator_of_kind (hkind.imp_left .inr)
  have hsign : ¬operator.kind.isSign := by
    generalize operator.kind = kind at hkind
    cases kind <;> simp_all [TokenKind.isSign, TokenKind.joinsFactors]
  intro vs final sign ws hts hfinal hsign'
  rcases List.append_eq_append_iff.mp hts with ⟨as, rfl, has⟩ | ⟨as, rfl, has⟩
  · -- The end of the operand comes behind the left one, so it is in the right one.
    cases as with
    | nil =>
      obtain ⟨rfl, -⟩ := List.cons.inj has
      exact absurd ho hfinal.not_isOperator
    | cons first as => exact hus as final sign ws (List.cons.inj has).2 hfinal hsign'
  · rcases as with _ | ⟨first, _ | ⟨second, as⟩⟩
    · obtain ⟨rfl, -⟩ := List.cons.inj has
      exact absurd ho hfinal.not_isOperator
    · -- The left operand ends there, and what is behind it is the operator.
      obtain ⟨-, htail⟩ := List.cons.inj has
      obtain ⟨rfl, -⟩ := List.cons.inj htail
      exact absurd hsign' hsign
    · obtain ⟨rfl, htail⟩ := List.cons.inj has
      obtain ⟨rfl, rfl⟩ := List.cons.inj htail
      obtain ⟨closing, hmem, hclosing⟩ := h vs _ _ as rfl hfinal hsign'
      exact ⟨closing, List.mem_append_left _ hmem, hclosing⟩

end Covered

/-- What binds closer than a sign is covered. -/
def CoveredIn : Production → List Token → Prop
  | .expression, _ => True
  | .complete, _ => True
  | _, ts => Covered ts

/-- A sign behind the end of an operand is in a term only within parentheses. -/
theorem Derives.covered : ∀ {p : Production} {ts : List Token} {e : Expr}, Derives p ts e →
    CoveredIn p ts
  | _, _, _, .number _ => Covered.singleton _
  | _, _, _, .name _ => Covered.singleton _
  | _, _, _, .group _ _ hc => Covered.concat _ hc
  | _, _, _, .call _ _ _ hc => Covered.concat _ hc
  | _, _, _, .primary h => h.covered
  | _, _, _, .power h hcaret hus => Covered.join h.covered hus.covered (.inr hcaret)
  | _, _, _, .factor h => h.covered
  | _, _, _, .signed hsign h => Covered.cons h.covered hsign
  | _, _, _, .term h => h.covered
  | _, _, _, .product h ho hus => Covered.join h.covered hus.covered (.inl ho)
  | _, _, _, .expression _ => trivial
  | _, _, _, .sum _ _ _ => trivial
  | _, _, _, .complete _ => trivial

/-! ## Where factors end before an appended sum -/

/-- What is covered does not get from the end of an operand across a sign, unless there are closing
parentheses behind it. -/
theorem Covered.not_across {w us rest more : List Token} {sign : Token} (h : Covered us)
    (hfinal : EndsWithOperand w) (hsign : sign.kind.isSign)
    (hmore : ∀ token ∈ more, token.kind ≠ .rightParenthesis)
    (hus : w ++ sign :: more = us ++ rest) : ∃ v, w = us ++ v ∧ rest = v ++ sign :: more := by
  rcases List.append_eq_append_iff.mp hus with ⟨as, rfl, has⟩ | ⟨as, hw, hrest⟩
  · cases as with
    | nil => exact ⟨[], by simp, has.symm⟩
    | cons first as =>
      obtain ⟨rfl, rfl⟩ := List.cons.inj has
      obtain ⟨ts, final, rfl, hfinal⟩ := hfinal
      obtain ⟨closing, hmem, hclosing⟩ := h ts final sign as (by simp) hfinal hsign
      exact absurd hclosing (hmore closing (List.mem_append_left _ hmem))
  · exact ⟨as, hw, hrest⟩

/-- No sign has an operator other than a sign behind it and then the rest of one factor up to the
end. Such a sign would be a prefix at the end and an operand before another factor. -/
def SignsFixed (w : List Token) : Prop :=
  ∀ us sign vs, w = us ++ sign :: vs → sign.kind.isSign →
    (nextKind vs).joinsFactors ∨ nextKind vs = .caret → ¬Skips vs []

/-- Tokens that a sum can be appended to: the last of them ends an operand, and no sign is read
otherwise when they go on. -/
structure Extensible (w : List Token) : Prop where
  final : EndsWithOperand w
  fixed : SignsFixed w

/-- The end of tokens that a sum can be appended to is of this kind as well. -/
theorem Extensible.right {us v : List Token} (h : Extensible (us ++ v)) (hv : v ≠ []) :
    Extensible v :=
  ⟨h.final.right hv, fun vs sign ws hws => h.fixed (us ++ vs) sign ws (by simp [hws])⟩

/-- A sign before tokens that a sum can be appended to is told the same if factors end at the same
places behind it. -/
theorem Extensible.operand_iff {x us w : List Token} {sign : Token}
    (h : Extensible (us ++ sign :: w)) (hsign : sign.kind.isSign)
    (hends : ∀ v, v.length ≤ w.length → Extensible v → SameEnds x v) :
    Operand Skips w ↔ Operand Skips (w ++ x) := by
  have hne : w ≠ [] := h.final.ne_nil_of_sign hsign
  have hbehind : Extensible w := by
    rw [List.append_cons] at h
    exact h.right hne
  have hkind : nextKind (w ++ x) = nextKind w := by
    cases w with
    | nil => exact absurd rfl hne
    | cons token w => rfl
  refine (hends w (Nat.le_refl _) hbehind).operand_iff (by rw [hkind]) fun v hnext hv => ?_
  -- Behind the first factor there are tokens left, so a second one ends where it did.
  obtain ⟨us', _, rfl, -⟩ := (settled_skips w v).mp hv
  have hrest : v ≠ [] := fun hnil => h.fixed us sign _ rfl hsign hnext (hnil ▸ hv)
  exact hends v (by simp) (hbehind.right hrest)

section

variable {sign : Token} {more : List Token} (hsign : sign.kind.isSign)
  (hmore : ∀ token ∈ more, token.kind ≠ .rightParenthesis)
include hsign

/-- Something goes on with what is appended if and only if it went on. -/
theorem continues_append_iff (w : List Token) : Continues (w ++ sign :: more) ↔ Continues w := by
  cases w with
  | nil =>
    have hnot := (Words.not_continues_of_sign (w := sign :: more) hsign).1
    exact iff_of_false hnot (Words.not_continues_of_closes (.inl rfl)).1
  | cons token w => exact Iff.rfl

include hmore

/-- Where a sum is appended, factors end where they did. -/
theorem Extensible.seam : Seam (sign :: more) Extensible where
  continues_iff := continues_append_iff hsign
  stays h hread hus := Covered.not_across hread.derives.covered h.final hsign hmore hus
  operand_iff h := h.operand_iff

/-- An expression is read as it was when a sum is appended. -/
theorem Extensible.reads_iff {ts : List Token} (h : Extensible ts) (t : SyntaxTree) :
    Reads .expression ts (sign :: more) t ↔ Reads .expression ts [] t :=
  (Extensible.seam hsign hmore).reads_iff h t

end

/-! ## A number that is added -/

/-- A production reads tokens before others in one way, if it does not go on with these. -/
theorem Reads.unique {p : Production} {ts rest : List Token} {t t' : SyntaxTree}
    (h : Reads p ts rest t) (h' : Reads p ts rest t') (hend : Words.Ends p rest) : t = t' := by
  have hlast : (Cursor.endToken []).kind = .endOfFile := rfl
  unfold Reads at h h'
  rw [← Words.ruleSkips_eq hlast] at h h'
  have hrule := (Words.rule_of_reads hlast h hend).symm.trans (Words.rule_of_reads hlast h' hend)
  cases hrule
  rfl

/-- Some tokens with two behind them are split at the first of the two, or before. -/
theorem append_two_eq {ts us vs : List Token} {first second operator : Token} (hvs : vs ≠ [])
    (h : ts ++ [first, second] = us ++ operator :: vs) :
    (us = ts ∧ operator = first ∧ vs = [second]) ∨
      ∃ ws, ts = us ++ operator :: ws ∧ vs = ws ++ [first, second] := by
  rcases List.append_eq_append_iff.mp h with ⟨as, rfl, has⟩ | ⟨as, rfl, has⟩
  · rcases as with _ | ⟨_, _ | ⟨_, as⟩⟩ <;> simp_all
  · rcases as with _ | ⟨_, as⟩ <;> simp_all

section

variable {ts : List Token} {plus one : Token}
  (hfinal : EndsWithOperand ts) (hplus : plus.kind = .plus) (hone : one.kind = .number)

include hone in
/-- A number is a term. -/
theorem reads_number : Reads .term [one] [] (.leaf one) := by
  refine .term (.factor (.primary (.leaf (.inl hone))) fun sign us hsign hkind => ?_)
  obtain ⟨rfl, -⟩ := List.cons.inj hsign
  simp [hone, TokenKind.isSign] at hkind

include hfinal hplus hone

/-- What ends an operand and then adds a number is read as a sum, and what stands before the sign
is the left operand of it. -/
theorem reads_append_iff (t : SyntaxTree) :
    Reads .expression (ts ++ [plus, one]) [] t ↔
      ∃ left, Reads .expression ts [plus, one] left ∧
        t = .call (.leaf plus) [left, .leaf one] := by
  have hsign : plus.kind.isSign := by simp [hplus, TokenKind.isSign]
  have hmore : ∀ token ∈ [one], token.kind ≠ .rightParenthesis := by simp [hone]
  have hend : Words.Ends .term [] :=
    ⟨(Words.not_continues_of_closes (.inl rfl)).1, (Words.not_continues_of_closes (.inl rfl)).2.1⟩
  -- A term does not reach across the sign from the end of an operand.
  have hterm : ∀ {v : List Token} {right : SyntaxTree}, EndsWithOperand v →
      ¬Reads .term (v ++ [plus, one]) [] right := by
    intro v right hv hread
    obtain ⟨rest, -, hrest⟩ := Covered.not_across hread.derives.covered hv hsign hmore
      (List.append_nil (v ++ [plus, one])).symm
    simp at hrest
  constructor
  · intro h
    generalize hall : ts ++ [plus, one] = all at h
    cases h with
    | expression h =>
      subst hall
      exact absurd h (hterm hfinal)
    | @sum operator us vs _ left right h ho hvs =>
      rcases append_two_eq hvs.ne_nil hall with ⟨rfl, rfl, rfl⟩ | ⟨ws, rfl, rfl⟩
      · obtain rfl := Reads.unique hvs (reads_number hone) hend
        exact ⟨left, h, rfl⟩
      · -- A sign further to the left would have the appended one in the term behind it.
        exact absurd hvs (hterm (hfinal.behind ho))
  · rintro ⟨left, hleft, rfl⟩
    exact .sum hleft hsign (reads_number hone)

end

/-- The sum of an expression and the number one. -/
def plusOne (e : Expr) : Expr :=
  .call (.leaf (.identifier "+")) [e, .leaf (.number (Binary64.ofBits 0x3FF0000000000000))]

/-- What is appended is a sign and a number. -/
theorem lexes_plus_one : Lexes (fun ts => ∃ plus one : Token, ts = [plus, one] ∧
    (plus.kind = .plus ∧ plus.lexeme = "+") ∧ one.kind = .number ∧ one.lexeme = "1")
    " + 1".toList [] := by
  have hblank : Text.isBlank ' ' = true := by decide
  have hplus : TokenKind.ofSymbol? '+' = some .plus := rfl
  have hone : Lexes _ "1".toList [] := Lexes.lexeme (by simp) rfl fun _ hc => by cases hc
  refine ((Lexes.blank hblank).append ((Lexes.symbol hplus).append
    ((Lexes.blank hblank).append hone))).mono ?_
  rintro ts ⟨_, _, rfl, rfl, _, _, rfl, ⟨plus, rfl, hsymbol⟩, _, _, rfl, rfl, one, rfl, hnumber⟩
  exact ⟨plus, one, rfl, hsymbol, hnumber⟩

/-- A text whose last token ends an operand goes on with a number that is added to it. What this is
parsed to, if it is parsed, is a sum, with what the first text reads as before the sign for its left
operand. If no sign of the first text is followed by an operator other than a sign and by the rest
of one factor up to the end, then the longer text is parsed whenever the first one is, and the left
operand is what that is parsed to. -/
theorem parse_append_one (s : String) (ts : List Token) (final : Token)
    (hlex : lex s = ts ++ [final] ++ [Cursor.endToken s.toList]) (hfinal : EndsOperand final) :
    ∃ plus one : Token, plus.kind = .plus ∧ one.kind = .number ∧
      lex (s ++ " + 1") =
        ts ++ [final] ++ [plus, one] ++ [Cursor.endToken (s ++ " + 1").toList] ∧
      (∀ e', parse (s ++ " + 1") = .ok e' ↔
        ∃ t, Reads .expression (ts ++ [final]) [plus, one] t ∧
          e' = plusOne (t.map Atom.ofToken)) ∧
      (SignsFixed (ts ++ [final]) →
        ∀ e, parse s = .ok e ↔ parse (s ++ " + 1") = .ok (plusOne e)) := by
  have hstops : Stops " + 1".toList := by
    intro c hc
    obtain rfl : c = ' ' := by simpa using hc.symm
    exact .inr (.inr rfl)
  obtain ⟨_, hlex', plus, one, rfl, ⟨hplus, hsymbol⟩, hone, hlexeme⟩ :=
    lex_append hlex hstops lexes_plus_one
  have hsum : ∀ left : SyntaxTree,
      Tree.map Atom.ofToken (.call (.leaf plus) [left, .leaf one]) =
        plusOne (left.map Atom.ofToken) := by
    intro left
    have hvalue : Literal.toBinary64 ['1'] = Binary64.ofBits 0x3FF0000000000000 := by
      decide +kernel
    rw [map_ofToken_operator (by simp [hplus]), hsymbol]
    simp [plusOne, Tree.map, Atom.ofToken, hone, hlexeme, hvalue]
  -- What is read of the longer text is read of the shorter one before the sign.
  have hends : EndsWithOperand (ts ++ [final]) := ⟨ts, final, rfl, hfinal⟩
  have happended : ∀ e', parse (s ++ " + 1") = .ok e' ↔
      ∃ t, Reads .expression (ts ++ [final]) [plus, one] t ∧
        e' = plusOne (t.map Atom.ofToken) := by
    intro e'
    rw [parse_eq_ok_iff hlex' (kind_ne_of_lex_eq hlex')]
    constructor
    · rintro ⟨t, ht, rfl⟩
      obtain ⟨left, hleft, rfl⟩ := (reads_append_iff hends hplus hone t).mp ht
      exact ⟨left, hleft, hsum left⟩
    · rintro ⟨left, hleft, rfl⟩
      exact ⟨_, (reads_append_iff hends hplus hone _).mpr ⟨left, hleft, rfl⟩, hsum left⟩
  refine ⟨plus, one, hplus, hone, hlex', happended, fun hfixed e => ?_⟩
  -- If the signs are fixed, then it does not matter whether the sign follows.
  have hext : Extensible (ts ++ [final]) := ⟨hends, hfixed⟩
  have hreads : ∀ t, Reads .expression (ts ++ [final]) [plus, one] t ↔
      Reads .expression (ts ++ [final]) [] t :=
    hext.reads_iff (by simp [hplus, TokenKind.isSign]) (by simp [hone])
  rw [happended, parse_eq_ok_iff hlex (kind_ne_of_lex_eq hlex)]
  refine exists_congr fun t => and_congr (hreads t).symm ?_
  simp [plusOne, eq_comm]

set_option maxRecDepth 4000 in
/-- A sign that is multiplied by three. The operator and the factor behind it are two factors, with
and without what is appended, so one is added to the same product. -/
theorem parse_sign_times_three_append_one :
    let product : Expr := .call (.leaf (.identifier "*"))
      [.leaf (.identifier "-"), .leaf (.number (Literal.toBinary64 "3".toList))]
    parse "- * 3" = .ok product ∧ parse ("- * 3" ++ " + 1") = .ok (plusOne product) := by
  intro product
  let minus : Token := ⟨.minus, "-", 0⟩
  let star : Token := ⟨.star, "*", 2⟩
  let three : Token := ⟨.number, "3", 4⟩
  have hlex : lex "- * 3" = [minus, star] ++ [three] ++ [Cursor.endToken "- * 3".toList] := by rfl
  have hparse : parse "- * 3" = .ok product := by rfl
  have hfixed : SignsFixed ([minus, star] ++ [three]) := by
    intro us sign vs hsplit hsign hnext hskips
    have hlast : (Cursor.endToken []).kind = .endOfFile := rfl
    rcases us with _ | ⟨_, _ | ⟨_, _ | ⟨_, us⟩⟩⟩
    · -- The first factor behind the sign is the operator alone, and three is left.
      obtain ⟨-, rfl⟩ := List.cons.inj hsplit
      rw [← Words.ruleSkips_eq hlast] at hskips
      obtain ⟨t, ht⟩ := hskips
      have hfactor : (Words.rules : Parser.Rules (Words (Cursor.endToken []))).factor
          ⟨[star, three]⟩ = .ok (.leaf star) ⟨[three]⟩ := by rfl
      cases hfactor.symm.trans ht
    · obtain ⟨rfl, -⟩ := List.cons.inj (List.cons.inj hsplit).2
      simp [star, TokenKind.isSign] at hsign
    · obtain ⟨rfl, -⟩ := List.cons.inj (List.cons.inj (List.cons.inj hsplit).2).2
      simp [three, TokenKind.isSign] at hsign
    · simp at hsplit
  obtain ⟨plus, one, -, -, -, -, hsame⟩ :=
    parse_append_one "- * 3" [minus, star] three hlex (.inl rfl)
  exact ⟨hparse, (hsame hfixed product).mp hparse⟩

set_option maxRecDepth 8000 in
/-- A call of an operator with two arguments is negated, and that is parsed. With a number behind it
the sign has two factors to look at, the operator with a group and the number, and is an operand.
But the group is none, and the longer text is not parsed. -/
theorem parse_negated_call_append_one :
    let call : Expr := .call (.leaf (.identifier "*"))
      [.leaf (.number (Literal.toBinary64 "1".toList)),
        .leaf (.number (Literal.toBinary64 "2".toList))]
    parse "-*(1,2)" = .ok (.call (.leaf (.identifier "-")) [call]) ∧
      (∃ ts final, lex "-*(1,2)" = ts ++ [final] ++ [Cursor.endToken "-*(1,2)".toList] ∧
        EndsOperand final) ∧
      ∀ e', parse ("-*(1,2)" ++ " + 1") ≠ .ok e' := by
  intro call
  have hlex : lex "-*(1,2)" =
      [⟨.minus, "-", 0⟩, ⟨.star, "*", 1⟩, ⟨.leftParenthesis, "(", 2⟩, ⟨.number, "1", 3⟩,
        ⟨.comma, ",", 4⟩, ⟨.number, "2", 5⟩] ++ [⟨.rightParenthesis, ")", 6⟩] ++
        [Cursor.endToken "-*(1,2)".toList] := by rfl
  have hparse : parse "-*(1,2)" = .ok (.call (.leaf (.identifier "-")) [call]) := by rfl
  have herror : parse ("-*(1,2)" ++ " + 1") = .error ⟨[.rightParenthesis], ⟨.comma, ",", 4⟩⟩ := by
    rfl
  refine ⟨hparse, ⟨_, _, hlex, .inr (.inr rfl)⟩, fun e' he' => ?_⟩
  cases herror.symm.trans he'

end LineCalc
