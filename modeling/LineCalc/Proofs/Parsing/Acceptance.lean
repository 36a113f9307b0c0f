import LineCalc.Proofs.Parsing.Phases
import LineCalc.Proofs.Parsing.Places
import LineCalc.Proofs.Parsing.Soundness

/-!
# Which derivable texts are parsed

The grammar is ambiguous, and the parser takes a sign for an operand or not by looking at what
follows it and never goes back on that. So it does not parse all that the grammar derives, but
exactly what has a derivation that takes the signs as `Operand` does (`parse_derivable`).

If no sign stands directly before an operator that is no sign, then some derivation does. The proof
follows the phases of the tokens (`AcceptsOn`). Where the phases have a sign as an operand and the
parser can read a factor behind it, the parser goes on in the phase after that factor, which is one
that the tokens could have been in as well.
-/

namespace LineCalc

open LineCalc.Parser (Production)

namespace Words

variable {last : Token}

/-- Through the phases of some tokens the rules come to the end of them, and those that stop before
that stop behind an operand. -/
structure AcceptsOn (last : Token) (w : List Token) : Prop where
  factor : ∀ z, Closes z → BeforeOperand w → ∃ t v, v.length < w.length ∧ AfterOperand v ∧
    ¬Continues (v ++ z) ∧ (rules : Parser.Rules (Words last)).factor ⟨w ++ z⟩ = .ok t ⟨v ++ z⟩
  expression : ∀ z, Closes z → BeforeOperand w →
    ∃ t, (rules : Parser.Rules (Words last)).expression ⟨w ++ z⟩ = .ok t ⟨z⟩
  term : ∀ z, Closes z → BeforeOperand w → ∃ t v, v.length < w.length ∧ AfterOperand v ∧
    Ends .term (v ++ z) ∧
    (rules : Parser.Rules (Words last)).term ⟨w ++ z⟩ = .ok t ⟨v ++ z⟩
  calls : ∀ z callee, Closes z → AfterOperand w → ∃ t v, v.length ≤ w.length ∧ AfterOperand v ∧
    nextKind (v ++ z) ≠ .leftParenthesis ∧
    (rules : Parser.Rules (Words last)).calls callee ⟨w ++ z⟩ = .ok t ⟨v ++ z⟩
  moreFactors : ∀ z left, Closes z → AfterOperand w → ¬Continues (w ++ z) → ∃ t v,
    v.length ≤ w.length ∧ AfterOperand v ∧ Ends .term (v ++ z) ∧
    (rules : Parser.Rules (Words last)).moreFactors left ⟨w ++ z⟩ = .ok t ⟨v ++ z⟩
  moreTerms : ∀ z left, Closes z → AfterOperand w → Ends .term (w ++ z) →
    ∃ t, (rules : Parser.Rules (Words last)).moreTerms left ⟨w ++ z⟩ = .ok t ⟨z⟩
  moreArguments : ∀ z, nextKind z = .rightParenthesis → InMoreArguments w →
    ∃ trees, (rules : Parser.Rules (Words last)).moreArguments ⟨w ++ z⟩ = .ok trees ⟨z⟩

section

variable (hlast : last.kind = .endOfFile) {w z : List Token}
include hlast

/-- The arguments of a call are read to their end. -/
theorem arguments_accepts (ih : ∀ v, v.length ≤ w.length → AcceptsOn last v)
    (hz : nextKind z = .rightParenthesis) (hw : InArguments w) :
    ∃ trees, Parser.arguments (rules : Parser.Rules (Words last)) ⟨w ++ z⟩ = .ok trees ⟨z⟩ := by
  cases hw with
  | none => exact ⟨[], arguments_of_error (expression_stuck hlast (.inr (.inr hz)))⟩
  | @some ts us hts hus =>
    obtain ⟨t, hfirst⟩ := (ih ts (by simp)).expression (us ++ z) (hus.closes hz) hts
    obtain ⟨trees, hmore⟩ := (ih us (by simp)).moreArguments z hz hus
    refine ⟨t :: trees, ?_⟩
    rw [List.append_assoc, arguments_of_ok hlast hfirst]
    exact Parser.bind_of_ok hmore

variable (ih : ∀ v, v.length < w.length → AcceptsOn last v) (hz : Closes z)
include ih hz

/-- Calls are read up to what is none. -/
theorem calls_accepts (callee : SyntaxTree) (hw : AfterOperand w) :
    ∃ t v, v.length ≤ w.length ∧ AfterOperand v ∧ nextKind (v ++ z) ≠ .leftParenthesis ∧
      (rules : Parser.Rules (Words last)).calls callee ⟨w ++ z⟩ = .ok t ⟨v ++ z⟩ := by
  cases hw with
  | nil =>
    have hopen : nextKind z ≠ .leftParenthesis := by rcases hz with h | h | h <;> simp [h]
    exact ⟨callee, [], Nat.le_refl _, .nil, hopen, calls_of_ne hlast hopen callee⟩
  | @operator operator w hkind hclear hw =>
    have hopen : nextKind (operator :: w ++ z) ≠ .leftParenthesis := by
      intro hopen
      have hopen : operator.kind = .leftParenthesis := hopen
      simp [hopen, TokenKind.isOperator, TokenKind.isSign, TokenKind.joinsFactors] at hkind
    exact ⟨callee, operator :: w, Nat.le_refl _, .operator hkind hclear hw, hopen,
      calls_of_ne hlast hopen callee⟩
  | @call opening closing us w ho hus hc hw =>
    have hlength : (opening :: us ++ closing :: w).length = us.length + w.length + 2 := by
      simp only [List.length_append, List.length_cons]
      omega
    obtain ⟨trees, harguments⟩ := arguments_accepts hlast (w := us) (z := closing :: (w ++ z))
      (fun v hv => ih v (by omega)) hc hus
    obtain ⟨t, v, hv, hafter, hopen, hcalls⟩ :=
      (ih w (by omega)).calls z (.call callee trees) hz hw
    refine ⟨t, v, by omega, hafter, hopen, ?_⟩
    rw [List.append_assoc, List.cons_append, List.cons_append, calls_cons hlast ho,
      Parser.bind_of_ok harguments, expect_bind_cons hc, hcalls]

/-- Behind an atom there are its calls, and then a power may follow. -/
theorem primary_accepts {v : List Token} {callee : SyntaxTree} (hv : v.length < w.length)
    (hatom : Parser.atom (rules : Parser.Rules (Words last)) ⟨w ++ z⟩ =
      rules.calls callee ⟨v ++ z⟩) (hafter : AfterOperand v) :
    ∃ t v', v'.length < w.length ∧ AfterOperand v' ∧ ¬Continues (v' ++ z) ∧
      Parser.primary (rules : Parser.Rules (Words last)) ⟨w ++ z⟩ = .ok t ⟨v' ++ z⟩ := by
  obtain ⟨base, v', hv', hafter', hopen, hcalls⟩ := (ih v hv).calls z callee hz hafter
  rw [hcalls] at hatom
  by_cases hcaret : nextKind (v' ++ z) = .caret
  · -- A caret is an operator of the phases, so an operand comes behind it.
    cases hafter' with
    | nil => rcases hz with h | h | h <;> simp [h] at hcaret
    | @operator caret v' hkind hclear hw =>
      rw [List.length_cons] at hv'
      obtain ⟨t, v'', hv'', hafter'', hnext, hfactor⟩ := (ih v' (by omega)).factor z hz hw
      refine ⟨.call (.leaf caret) [base, t], v'', by omega, hafter'', hnext, ?_⟩
      rw [List.cons_append] at hatom
      rw [primary_of_power hatom hcaret, Parser.bind_of_ok hfactor]
      rfl
    | call ho _ _ _ => exact absurd ho hopen
  · exact ⟨base, v', by omega, hafter', fun hc => hc.elim hopen hcaret,
      primary_of_atom hlast hatom hcaret⟩

/-- A leaf or a group is read with what follows it. -/
theorem primary_of_beforeOperand (hw : BeforeOperand w)
    (hsign : ∀ sign v, w = sign :: v → sign.kind.isSign → AfterOperand v) :
    ∃ t v, v.length < w.length ∧ AfterOperand v ∧ ¬Continues (v ++ z) ∧
      Parser.primary (rules : Parser.Rules (Words last)) ⟨w ++ z⟩ = .ok t ⟨v ++ z⟩ := by
  cases hw with
  | @leaf token w hkind hclear hafter =>
    exact primary_accepts hlast ih hz (by simp) (atom_leaf hlast hkind (w ++ z)) hafter
  | @sign sign w hkind hclear hw =>
    exact primary_accepts hlast ih hz (by simp)
      (atom_leaf hlast (.inr (.inr (by simp [hkind, TokenKind.isOperator]))) (w ++ z))
      (hsign sign w rfl hkind)
  | @group opening closing ts w ho hts hc hafter =>
    have hlength : (opening :: ts ++ closing :: w).length = ts.length + w.length + 2 := by
      simp only [List.length_append, List.length_cons]
      omega
    obtain ⟨t, hexpression⟩ :=
      (ih ts (by omega)).expression (closing :: (w ++ z)) (.inr (.inr hc)) hts
    have hatom : Parser.atom (rules : Parser.Rules (Words last))
        ⟨opening :: ts ++ closing :: w ++ z⟩ = rules.calls t ⟨w ++ z⟩ := by
      rw [List.append_assoc, List.cons_append, List.cons_append, atom_group hlast ho,
        Parser.bind_of_ok hexpression, expect_bind_cons hc]
    exact primary_accepts hlast ih hz (by omega) hatom hafter

omit hlast ih in
/-- A sign that is clear does not start two factors. -/
theorem not_two_factors {sign : Token} (hsign : sign.kind.isSign) (hclear : ClearBefore sign w) :
    ¬((nextKind (w ++ z)).joinsFactors ∨ nextKind (w ++ z) = .caret) := by
  cases w with
  | nil => rcases hz with h | h | h <;> simp [h, TokenKind.joinsFactors]
  | cons token w =>
    rintro (hjoins | hcaret)
    · exact (hclear hsign).1 hjoins
    · exact (hclear hsign).2 hcaret

omit ih hz in
/-- Where a factor starts with a group, there is an expression in it. -/
theorem expression_of_skips {opening : Token} (ho : opening.kind = .leftParenthesis)
    (h : RuleSkips last (opening :: w) z) : ∃ t closing v, closing.kind = .rightParenthesis ∧
      (rules : Parser.Rules (Words last)).expression ⟨w⟩ = .ok t ⟨closing :: v⟩ := by
  obtain ⟨t, hfactor⟩ := h
  have hsign : ¬(nextKind (opening :: w)).isSign := by
    show ¬opening.kind.isSign
    simp [ho, TokenKind.isSign]
  rw [factor_of_not hlast hsign, primary_eq] at hfactor
  obtain ⟨base, s, hatom, -⟩ := Parser.bind_eq_ok.mp hfactor
  rw [atom_group hlast ho] at hatom
  obtain ⟨tree, ⟨v⟩, hexpression, hclose⟩ := Parser.bind_eq_ok.mp hatom
  obtain ⟨closing, v, rfl, hclosing, -⟩ := expect_bind_eq_ok hlast (by simp) hclose
  exact ⟨tree, closing, v, hclosing, hexpression⟩

/-- If a factor can be read behind a sign that is an operand, then the sign could also have been a
prefix: no factor starts with arguments unless they are one expression. -/
theorem beforeOperand_of_skips {sign : Token} (hsign : sign.kind.isSign)
    (hclear : ClearBefore sign w) (hw : AfterOperand w) {rest : List Token}
    (hskips : RuleSkips last (w ++ z) rest) : BeforeOperand w := by
  cases hw with
  | nil =>
    obtain ⟨t, hfactor⟩ := hskips
    rw [List.nil_append, factor_stuck hlast hz] at hfactor
    cases hfactor
  | @operator operator w hkind hnext hw =>
    obtain ⟨hjoins, hcaret⟩ := hclear hsign
    -- With clear signs only another sign can follow, and that can be a prefix in its turn.
    have hkind : operator.kind.isSign := by
      simp only [nextKind] at hjoins hcaret
      simpa [TokenKind.isOperator, hjoins, hcaret] using hkind
    exact .sign hkind hnext hw
  | @call opening closing us w ho hus hc hw =>
    rw [List.append_assoc, List.cons_append] at hskips
    obtain ⟨t, close, v, hclose, hexpression⟩ := expression_of_skips hlast ho hskips
    cases hus with
    | none =>
      -- Between the parentheses of a call without arguments no expression starts.
      have hstuck := expression_stuck hlast (w := closing :: (w ++ z)) (.inr (.inr hc))
      rw [List.nil_append, List.cons_append, hstuck] at hexpression
      cases hexpression
    | @some ts us hts hus =>
      cases hus with
      | nil =>
        -- One argument in parentheses looks like a group, and can stand for one.
        rw [List.append_nil]
        exact .group ho hts hc hw
      | @cons comma ts' us hcomma _ _ =>
        -- The first of several arguments is followed by a comma, and not by what ends a group.
        have hshort :
            ts.length < (opening :: (ts ++ (comma :: ts' ++ us)) ++ closing :: w).length := by
          simp only [List.length_append, List.length_cons]
          omega
        obtain ⟨t', hfirst⟩ := (ih ts hshort).expression
          (comma :: (ts' ++ us ++ closing :: (w ++ z))) (.inr (.inl hcomma)) hts
        have hlist : ts ++ (comma :: ts' ++ us) ++ (closing :: w ++ z) =
            ts ++ comma :: (ts' ++ us ++ closing :: (w ++ z)) := by simp
        rw [hlist, hfirst] at hexpression
        cases hexpression
        rw [hcomma] at hclose
        cases hclose

/-- A prefix is read with the factor behind it. -/
theorem unary_accepts {sign : Token} {v : List Token} (hw : w = sign :: v)
    (hsign : sign.kind.isSign) (hclear : ClearBefore sign v) (hv : BeforeOperand v) :
    ∃ t v, v.length < w.length ∧ AfterOperand v ∧ ¬Continues (v ++ z) ∧
      (rules : Parser.Rules (Words last)).factor ⟨w ++ z⟩ = .ok t ⟨v ++ z⟩ := by
  subst hw
  obtain ⟨t, v', hlength, hafter, hnext, hfactor⟩ := (ih v (by simp)).factor z hz hv
  have hoperand : ¬Operand (RuleSkips last) (v ++ z) := by
    rintro (⟨htwo, -⟩ | hno)
    · exact not_two_factors hz hsign hclear htwo
    · exact hno ⟨v' ++ z, t, hfactor⟩
  exact ⟨.call (.leaf sign) [t], v', by rw [List.length_cons]; omega, hafter, hnext,
    factor_unary hlast hsign hoperand hfactor⟩

/-- A factor is read up to a place behind an operand. -/
theorem factor_accepts (hw : BeforeOperand w) :
    ∃ t v, v.length < w.length ∧ AfterOperand v ∧ ¬Continues (v ++ z) ∧
      (rules : Parser.Rules (Words last)).factor ⟨w ++ z⟩ = .ok t ⟨v ++ z⟩ := by
  by_cases hsign : (nextKind (w ++ z)).isSign
  · cases hw with
    | @leaf sign v hkind hclear hafter =>
      by_cases hskips : ∃ rest, RuleSkips last (v ++ z) rest
      · -- The phases have the sign as an operand, but the parser takes it for a prefix.
        obtain ⟨rest, hskips⟩ := hskips
        have hv := beforeOperand_of_skips hlast (fun u hu => ih u (by rw [List.length_cons]; omega))
          hz hsign hclear hafter hskips
        exact unary_accepts hlast ih hz rfl hsign hclear hv
      · rw [List.cons_append, factor_operand hlast hsign (.inr hskips)]
        exact primary_of_beforeOperand hlast ih hz (.leaf hkind hclear hafter)
          fun _ _ heq _ => by cases heq; exact hafter
    | @sign sign v hkind hclear hv => exact unary_accepts hlast ih hz rfl hkind hclear hv
    | group ho _ _ _ =>
      have hopen : TokenKind.isSign .leftParenthesis = true := ho ▸ hsign
      cases hopen
  · rw [factor_of_not hlast hsign]
    exact primary_of_beforeOperand hlast ih hz hw fun sign v heq hkind => by
      subst heq
      exact absurd hkind hsign

/-- More factors are read up to what is none. -/
theorem moreFactors_accepts (left : SyntaxTree) (hw : AfterOperand w)
    (hnext : ¬Continues (w ++ z)) :
    ∃ t v, v.length ≤ w.length ∧ AfterOperand v ∧ Ends .term (v ++ z) ∧
      (rules : Parser.Rules (Words last)).moreFactors left ⟨w ++ z⟩ = .ok t ⟨v ++ z⟩ := by
  by_cases hjoins : (nextKind (w ++ z)).joinsFactors
  · cases hw with
    | nil => exact absurd hjoins (not_continues_of_closes hz).2.1
    | @operator operator w hkind hclear hw =>
      obtain ⟨right, v, hv, hafter, hnext, hfactor⟩ := (ih w (by simp)).factor z hz hw
      have hshort : v.length < (operator :: w).length := by
        rw [List.length_cons]
        omega
      obtain ⟨t, v', hv', hafter', hend, hmore⟩ :=
        (ih v hshort).moreFactors z (.call (.leaf operator) [left, right]) hz hafter hnext
      refine ⟨t, v', by rw [List.length_cons]; omega, hafter', hend, ?_⟩
      rw [List.cons_append, moreFactors_cons hlast hjoins, Parser.bind_of_ok hfactor, hmore]
    | call ho _ _ _ => exact absurd (.inl ho) hnext
  · exact ⟨left, w, Nat.le_refl _, hw, ⟨hnext, hjoins⟩, moreFactors_of_not hlast hjoins left⟩

/-- A term is read up to what is no factor of it. -/
theorem term_accepts (hw : BeforeOperand w) :
    ∃ t v, v.length < w.length ∧ AfterOperand v ∧ Ends .term (v ++ z) ∧
      (rules : Parser.Rules (Words last)).term ⟨w ++ z⟩ = .ok t ⟨v ++ z⟩ := by
  obtain ⟨left, v, hv, hafter, hnext, hfactor⟩ := factor_accepts hlast ih hz hw
  obtain ⟨t, v', hv', hafter', hend, hmore⟩ := (ih v hv).moreFactors z left hz hafter hnext
  refine ⟨t, v', by omega, hafter', hend, ?_⟩
  rw [term_eq hlast, Parser.bind_of_ok hfactor, hmore]

/-- More terms are read up to the end. -/
theorem moreTerms_accepts (left : SyntaxTree) (hw : AfterOperand w) (hend : Ends .term (w ++ z)) :
    ∃ t, (rules : Parser.Rules (Words last)).moreTerms left ⟨w ++ z⟩ = .ok t ⟨z⟩ := by
  cases hw with
  | nil => exact ⟨left, moreTerms_of_not hlast (not_continues_of_closes hz).2.2 left⟩
  | @operator operator w hkind hclear hw =>
    obtain ⟨hnext, hjoins⟩ := hend
    -- The term before it has ended, so the operator is none that joins factors and no caret.
    have hsign : operator.kind.isSign := by
      have hcaret : operator.kind ≠ .caret := fun hcaret => hnext (.inr hcaret)
      simp only [List.cons_append, nextKind] at hjoins
      simpa [TokenKind.isOperator, hjoins, hcaret] using hkind
    obtain ⟨right, v, hv, hafter, hend, hterm⟩ := (ih w (by simp)).term z hz hw
    obtain ⟨t, hmore⟩ := (ih v (by rw [List.length_cons]; omega)).moreTerms z
      (.call (.leaf operator) [left, right]) hz hafter hend
    refine ⟨t, ?_⟩
    rw [List.cons_append, moreTerms_cons hlast hsign, Parser.bind_of_ok hterm, hmore]
  | call ho _ _ _ => exact absurd (.inl ho) hend.1

/-- An expression is read to its end. -/
theorem expression_accepts (hw : BeforeOperand w) :
    ∃ t, (rules : Parser.Rules (Words last)).expression ⟨w ++ z⟩ = .ok t ⟨z⟩ := by
  obtain ⟨left, v, hv, hafter, hend, hterm⟩ := term_accepts hlast ih hz hw
  obtain ⟨t, hmore⟩ := (ih v hv).moreTerms z left hz hafter hend
  refine ⟨t, ?_⟩
  rw [expression_eq hlast, Parser.bind_of_ok hterm, hmore]

omit hz in
/-- More arguments are read to the end of the call. -/
theorem moreArguments_accepts (hz : nextKind z = .rightParenthesis) (hw : InMoreArguments w) :
    ∃ trees, (rules : Parser.Rules (Words last)).moreArguments ⟨w ++ z⟩ = .ok trees ⟨z⟩ := by
  cases hw with
  | nil => exact ⟨[], moreArguments_of_ne hlast (by simp [hz])⟩
  | @cons comma ts us hcomma hts hus =>
    have hlength : (comma :: ts ++ us).length = ts.length + us.length + 1 := by
      simp only [List.length_append, List.length_cons]
      omega
    obtain ⟨t, hfirst⟩ := (ih ts (by omega)).expression (us ++ z) (hus.closes hz) hts
    obtain ⟨trees, hmore⟩ := (ih us (by omega)).moreArguments z hz hus
    refine ⟨t :: trees, ?_⟩
    rw [List.append_assoc, List.cons_append, moreArguments_cons hlast hcomma,
      Parser.bind_of_ok hfirst]
    exact Parser.bind_of_ok hmore

end

/-- Through the phases of any tokens the rules come to the end of them. -/
theorem acceptsOn (hlast : last.kind = .endOfFile) (w : List Token) : AcceptsOn last w := by
  induction hn : w.length using Nat.strongRecOn generalizing w with
  | ind n ih =>
    subst hn
    have ih : ∀ v : List Token, v.length < w.length → AcceptsOn last v := fun v hv =>
      ih v.length hv v rfl
    exact {
      factor := fun _ hz hw => factor_accepts hlast ih hz hw
      term := fun _ hz hw => term_accepts hlast ih hz hw
      expression := fun _ hz hw => expression_accepts hlast ih hz hw
      calls := fun _ callee hz hw => calls_accepts hlast ih hz callee hw
      moreFactors := fun _ left hz hw hnext => moreFactors_accepts hlast ih hz left hw hnext
      moreTerms := fun _ left hz hw hend => moreTerms_accepts hlast ih hz left hw hend
      moreArguments := fun _ hz hw => moreArguments_accepts hlast ih hz hw }

end Words

/-- The tokens before the end of a text are not ends of it. -/
theorem kind_ne_of_lex_eq {source : String} {ts : List Token}
    (hlex : lex source = ts ++ [Cursor.endToken source.toList]) :
    ∀ token ∈ ts, token.kind ≠ .endOfFile := by
  obtain ⟨all, hall, hkinds⟩ := lex_eq_append source
  rw [hall] at hlex
  obtain rfl := List.append_cancel_right hlex
  exact hkinds

/-- What the grammar derives with clear signs has a derivation that the parser follows. -/
theorem Derives.exists_reads {ts : List Token} {e : Expr} (h : Derives .expression ts e)
    (hts : ∀ token ∈ ts, token.kind ≠ .endOfFile) (hclear : SignsClear ts) :
    ∃ t, Reads .expression ts [] t := by
  have hphase := h.beforeOperand [] (by simpa using hclear) .nil
  -- Any last token will do, for `Reads` does not depend on it.
  have hlast : (Cursor.endToken []).kind = .endOfFile := rfl
  have haccepts := Words.acceptsOn hlast (ts ++ [])
  obtain ⟨t, hexpression⟩ := haccepts.expression [] (.inl rfl) hphase
  rw [List.append_nil, List.append_nil] at hexpression
  obtain ⟨us, hus, -, hreads⟩ :=
    (Words.rule_eq_ok_iff hlast hts .expression t).mp hexpression
  obtain rfl : ts = us := by simpa using hus
  exact ⟨t, hreads⟩

/-- A text that the grammar derives is parsed exactly if one of its derivations takes each sign that
starts a factor for an operand when the tokens behind it are an operator other than a sign and then
what makes two factors, or when they start with no factor at all, and else for a prefix. If no sign
stands directly before an operator other than a sign, it is parsed. -/
theorem parse_derivable (source : String) (ts : List Token) (e : Expr)
    (hlex : lex source = ts ++ [Cursor.endToken source.toList]) (h : Derives .expression ts e) :
    ((∃ e', parse source = .ok e') ↔
      ∃ t, Reads .expression ts [] t ∧ Derives .expression ts (t.map Atom.ofToken)) ∧
    (SignsClear ts → ∃ e', parse source = .ok e') := by
  have hparse := parse_eq_ok_iff hlex (kind_ne_of_lex_eq hlex)
  -- The tree that is parsed need not be `e`, since other derivations may read the signs otherwise.
  have hiff : (∃ e', parse source = .ok e') ↔ ∃ t, Reads .expression ts [] t := by
    constructor
    · rintro ⟨e', he'⟩
      obtain ⟨t, hreads, -⟩ := (hparse e').mp he'
      exact ⟨t, hreads⟩
    · rintro ⟨t, hreads⟩
      exact ⟨_, (hparse _).mpr ⟨t, hreads, rfl⟩⟩
  refine ⟨hiff.trans (exists_congr fun t => ⟨fun hreads => ⟨hreads, hreads.derives⟩, And.left⟩),
    fun hclear => hiff.mpr (h.exists_reads (kind_ne_of_lex_eq hlex) hclear)⟩

set_option maxRecDepth 4000 in
/-- A negated name is derived with clear signs, so it is parsed, in the one way that the parser
takes the sign. -/
theorem parse_negated_name :
    (∃ e', parse "-x" = .ok e') ∧
      ∃ t, Reads .expression [⟨.minus, "-", 0⟩, ⟨.identifier, "x", 1⟩] [] t := by
  have htokens : lex "-x" =
      [⟨.minus, "-", 0⟩, ⟨.identifier, "x", 1⟩] ++ [Cursor.endToken "-x".toList] := by rfl
  have hnegation : Derives .expression [⟨.minus, "-", 0⟩, ⟨.identifier, "x", 1⟩] _ :=
    .expression (.term (.signed rfl (.factor (.primary (.name (.inl rfl))))))
  obtain ⟨hiff, hclear⟩ := parse_derivable "-x" _ _ htokens hnegation
  have hparse := hclear (by decide)
  obtain ⟨t, hreads, -⟩ := hiff.mp hparse
  exact ⟨hparse, t, hreads⟩

set_option maxRecDepth 8000 in
/-- A call of an operator with two arguments is negated, and then a number is taken away. The
operator and a group look like an operator and a factor, and another factor follows, so the sign is
an operand. But the group is none, and the text is not parsed. -/
theorem parse_rejects_negated_call :
    ∃ ts e, lex "-*(1,2) - 3" = ts ++ [Cursor.endToken "-*(1,2) - 3".toList] ∧
      Derives .expression ts e ∧ ∀ e', parse "-*(1,2) - 3" ≠ .ok e' := by
  have htokens : lex "-*(1,2) - 3" =
      [⟨.minus, "-", 0⟩, ⟨.star, "*", 1⟩, ⟨.leftParenthesis, "(", 2⟩, ⟨.number, "1", 3⟩,
        ⟨.comma, ",", 4⟩, ⟨.number, "2", 5⟩, ⟨.rightParenthesis, ")", 6⟩, ⟨.minus, "-", 8⟩,
        ⟨.number, "3", 10⟩] ++ [Cursor.endToken "-*(1,2) - 3".toList] := by rfl
  have hnumber : ∀ {token : Token}, token.kind = .number →
      Derives .term [token] (.leaf (.number (Literal.toBinary64 token.lexeme.toList))) :=
    fun h => .term (.factor (.primary (.number h)))
  have harguments : DerivesArguments
      ([⟨.number, "1", 3⟩] ++ (⟨.comma, ",", 4⟩ :: [⟨.number, "2", 5⟩] ++ [])) _ :=
    .some (.expression (hnumber rfl)) (.cons rfl (.expression (hnumber rfl)) .nil)
  have hcall : Derives .atom
      ([⟨.star, "*", 1⟩] ++ ⟨.leftParenthesis, "(", 2⟩ :: _ ++ [⟨.rightParenthesis, ")", 6⟩]) _ :=
    .call (.name (.inr rfl)) rfl harguments rfl
  have hdifference : Derives .expression
      (⟨.minus, "-", 0⟩ :: _ ++ ⟨.minus, "-", 8⟩ :: [⟨.number, "3", 10⟩]) _ :=
    .sum (.expression (.term (.signed rfl (.factor (.primary hcall))))) rfl (hnumber rfl)
  have herror : parse "-*(1,2) - 3" = .error ⟨[.rightParenthesis], ⟨.comma, ",", 4⟩⟩ := by rfl
  refine ⟨_, _, htokens, hdifference, fun e' he' => ?_⟩
  rw [herror] at he'
  cases he'

end LineCalc
