import LineCalc.Proofs.Parsing.Reading

/-!
# The rules read nothing else

What the rules read from a list of tokens, a production derives, and it ends where the production
cannot go on. So on lists of tokens a rule succeeds exactly with what `Reads` derives
(`rule_eq_ok_iff`).

The proof goes by induction on how many tokens there are, for all rules together (`SoundOn`). The
rules that repeat something are given what stands before the next step and not the tokens of it, so
what is said of them is that they extend every derivation of it. A rule that looks ahead and comes
back leaves nothing behind but the outcome of the look, which is what `Operand` asks.
-/

namespace LineCalc.Words

open LineCalc.Parser (Production)

variable {last : Token}

/-- The rule for a production. -/
def rule : Production → Parser (Words last) SyntaxTree
  | .atom => Parser.atom rules
  | .primary => Parser.primary rules
  | .factor => rules.factor
  | .term => rules.term
  | .expression => rules.expression
  | .complete => do
    let tree ← rules.expression
    discard <| Parser.expect .endOfFile
    return tree

/-- A production does not go on with the tokens that are left. -/
def Ends : Production → List Token → Prop
  | .atom, rest => nextKind rest ≠ .leftParenthesis
  | .primary, rest => ¬Continues rest
  | .factor, rest => ¬Continues rest
  | .term, rest => ¬Continues rest ∧ ¬(nextKind rest).joinsFactors
  | .expression, rest =>
    ¬Continues rest ∧ ¬(nextKind rest).joinsFactors ∧ ¬(nextKind rest).isSign
  | .complete, rest => rest = []

/-- The first tokens of `w` derive a tree, and the production ends before the others. -/
def ReadsUpTo (last : Token) (p : Production) (w : List Token) (t : SyntaxTree)
    (rest : List Token) : Prop :=
  ∃ ts, w = ts ++ rest ∧ Ends p rest ∧ ReadsWith (RuleSkips last) p ts rest t

/-- What the rules read from a list of tokens is derived by its start. -/
structure SoundOn (last : Token) (w : List Token) : Prop where
  rule : ∀ p t rest, p ≠ .complete →
    rule p (⟨w⟩ : Words last) = .ok t ⟨rest⟩ → ReadsUpTo last p w t rest
  calls : ∀ callee t rest, (rules : Parser.Rules (Words last)).calls callee ⟨w⟩ = .ok t ⟨rest⟩ →
    ∃ ts, w = ts ++ rest ∧ Ends .atom rest ∧ ∀ us,
      ReadsWith (RuleSkips last) .atom us w callee →
        ReadsWith (RuleSkips last) .atom (us ++ ts) rest t
  moreArguments : ∀ trees rest,
    (rules : Parser.Rules (Words last)).moreArguments ⟨w⟩ = .ok trees ⟨rest⟩ →
    ∃ ts, w = ts ++ rest ∧ ReadsMore (RuleSkips last) ts rest trees
  moreFactors : ∀ left t rest,
    (rules : Parser.Rules (Words last)).moreFactors left ⟨w⟩ = .ok t ⟨rest⟩ → ¬Continues w →
    ∃ ts, w = ts ++ rest ∧ Ends .term rest ∧ ∀ us,
      ReadsWith (RuleSkips last) .term us w left →
        ReadsWith (RuleSkips last) .term (us ++ ts) rest t
  moreTerms : ∀ left t rest,
    (rules : Parser.Rules (Words last)).moreTerms left ⟨w⟩ = .ok t ⟨rest⟩ → Ends .term w →
    ∃ ts, w = ts ++ rest ∧ Ends .expression rest ∧ ∀ us,
      ReadsWith (RuleSkips last) .expression us w left →
        ReadsWith (RuleSkips last) .expression (us ++ ts) rest t

/-- What a production derives leaves fewer tokens. -/
theorem ReadsUpTo.length_lt {p : Production} {w rest : List Token} {t : SyntaxTree}
    (h : ReadsUpTo last p w t rest) : rest.length < w.length := by
  obtain ⟨ts, rfl, -, hread⟩ := h
  have hts := List.length_pos_iff.mpr hread.ne_nil
  rw [List.length_append]
  omega

/-- A token of a kind other than that of the last one is in the list. -/
theorem exists_cons_of_nextKind {w : List Token} (h : nextKind w ≠ .endOfFile) :
    ∃ token v, w = token :: v ∧ nextKind w = token.kind := by
  cases w with
  | nil => exact absurd rfl h
  | cons token v => exact ⟨token, v, rfl, rfl⟩

section

variable (hlast : last.kind = .endOfFile) {w rest : List Token}
include hlast

omit hlast in
/-- A token that is expected is the next one. -/
theorem expect_eq_ok {kind : TokenKind} {token : Token} {s : Words last}
    (h : Parser.expect kind (⟨w⟩ : Words last) = .ok token s) :
    (w.headD last).kind = kind ∧ s = ⟨w.tail⟩ := by
  have h : (if (w.headD last).kind = kind then pure (w.headD last)
      else throw ⟨[kind], w.headD last⟩ : Parser (Words last) Token) ⟨w.tail⟩ = .ok token s := h
  by_cases hhead : (w.headD last).kind = kind
  · rw [if_pos hhead] at h
    cases h
    exact ⟨hhead, rfl⟩
  · rw [if_neg hhead] at h
    cases h

/-- A token that was expected was there. -/
theorem expect_bind_eq_ok {α : Type} {kind : TokenKind} (hkind : kind ≠ .endOfFile)
    {p : Parser (Words last) α} {a : α} {s : Words last}
    (h : (Parser.expect kind >>= fun _ => p) ⟨w⟩ = .ok a s) :
    ∃ token v, w = token :: v ∧ token.kind = kind ∧ p ⟨v⟩ = .ok a s := by
  obtain ⟨token, s', hexpect, hp⟩ := Parser.bind_eq_ok.mp h
  obtain ⟨hhead, rfl⟩ := expect_eq_ok hexpect
  cases w with
  | nil => exact absurd (hhead.symm.trans hlast) hkind
  | cons token v => exact ⟨token, v, rfl, hhead, hp⟩

/-- The arguments of a call are those that were read, or none. -/
theorem arguments_sound (ih : ∀ v, v.length ≤ w.length → SoundOn last v)
    {trees : List SyntaxTree}
    (h : Parser.arguments (rules : Parser.Rules (Words last)) ⟨w⟩ = .ok trees ⟨rest⟩) :
    ∃ ts, w = ts ++ rest ∧ ReadsArguments (RuleSkips last) ts rest trees := by
  cases hfirst : (rules : Parser.Rules (Words last)).expression ⟨w⟩ with
  | ok t s =>
    obtain ⟨v⟩ := s
    rw [arguments_of_ok hlast hfirst] at h
    obtain ⟨more, ⟨v'⟩, hmore, hpure⟩ := Parser.bind_eq_ok.mp h
    cases hpure
    have hread := (ih w (Nat.le_refl _)).rule .expression t v (by simp) hfirst
    obtain ⟨us, rfl, hus⟩ := (ih v (Nat.le_of_lt hread.length_lt)).moreArguments more rest hmore
    obtain ⟨ts, rfl, -, hts⟩ := hread
    exact ⟨ts ++ us, by simp, .some hts hus⟩
  | error e s =>
    -- Whatever the attempt has read is put back, so the arguments take no token.
    rw [arguments_of_error hfirst] at h
    cases h
    exact ⟨[], rfl, .none⟩

variable (ih : ∀ v, v.length < w.length → SoundOn last v)
include ih

/-- Each call wraps what stands before it. -/
theorem calls_sound {callee t : SyntaxTree}
    (h : (rules : Parser.Rules (Words last)).calls callee ⟨w⟩ = .ok t ⟨rest⟩) :
    ∃ ts, w = ts ++ rest ∧ Ends .atom rest ∧ ∀ us,
      ReadsWith (RuleSkips last) .atom us w callee →
        ReadsWith (RuleSkips last) .atom (us ++ ts) rest t := by
  by_cases hopen : nextKind w = .leftParenthesis
  · obtain ⟨opening, v, rfl, hkind⟩ := exists_cons_of_nextKind (w := w) (by simp [hopen])
    rw [calls_cons hlast hopen] at h
    obtain ⟨arguments, ⟨v'⟩, harguments, hclose⟩ := Parser.bind_eq_ok.mp h
    obtain ⟨ts, rfl, hts⟩ := arguments_sound hlast
      (fun v' hv' => ih v' (by rw [List.length_cons]; omega)) harguments
    obtain ⟨closing, v, rfl, hclosing, hmore⟩ := expect_bind_eq_ok hlast (by simp) hclose
    obtain ⟨us, rfl, hend, hcalls⟩ :=
      (ih v (by simp only [List.length_cons, List.length_append]; omega)).calls _ _ _ hmore
    refine ⟨opening :: ts ++ closing :: us, by simp, hend, fun vs hvs => ?_⟩
    -- The call of the callee is the callee of the calls behind it.
    have hcall := hcalls _ (.call (by simpa using hvs) hopen hts hclosing)
    simpa using hcall
  · rw [calls_of_ne hlast hopen] at h
    cases h
    exact ⟨[], rfl, hopen, fun us hus => by simpa using hus⟩

/-- An atom is a leaf or a group, and the calls behind it. -/
theorem atom_sound {t : SyntaxTree}
    (h : rule .atom (⟨w⟩ : Words last) = .ok t ⟨rest⟩) : ReadsUpTo last .atom w t rest := by
  by_cases hleaf : nextKind w = .number ∨ nextKind w = .identifier ∨ (nextKind w).isOperator
  · obtain ⟨token, v, rfl, hkind⟩ := exists_cons_of_nextKind (w := w) (by
      intro hend
      simp [hend, TokenKind.isOperator, TokenKind.isSign, TokenKind.joinsFactors] at hleaf)
    have h : (rules : Parser.Rules (Words last)).calls (.leaf token) ⟨v⟩ = .ok t ⟨rest⟩ := by
      rw [← atom_leaf hlast hleaf]
      exact h
    obtain ⟨ts, rfl, hend, hcalls⟩ := (ih v (by simp)).calls _ _ _ h
    exact ⟨token :: ts, rfl, hend, hcalls [token] (.leaf hleaf)⟩
  · by_cases hopen : nextKind w = .leftParenthesis
    · obtain ⟨opening, v, rfl, hkind⟩ := exists_cons_of_nextKind (w := w) (by simp [hopen])
      have h : (rules.expression >>= fun tree => Parser.expect .rightParenthesis >>= fun _ =>
          rules.calls tree) (⟨v⟩ : Words last) = .ok t ⟨rest⟩ := by
        rw [← atom_group hlast hopen]
        exact h
      obtain ⟨tree, ⟨v'⟩, hexpression, hclose⟩ := Parser.bind_eq_ok.mp h
      obtain ⟨ts, rfl, -, hts⟩ := (ih v (by simp)).rule .expression _ _ (by simp) hexpression
      obtain ⟨closing, v, rfl, hclosing, hmore⟩ := expect_bind_eq_ok hlast (by simp) hclose
      obtain ⟨us, rfl, hend, hcalls⟩ :=
        (ih v (by simp only [List.length_cons, List.length_append]; omega)).calls _ _ _ hmore
      exact ⟨opening :: ts ++ closing :: us, by simp, hend, by
        simpa using hcalls _ (.group hopen hts hclosing)⟩
    · simp only [not_or] at hleaf
      have h : Parser.atom rules (⟨w⟩ : Words last) = .ok t ⟨rest⟩ := h
      rw [atom_stuck hlast hleaf.1 hleaf.2.1 hleaf.2.2 hopen] at h
      cases h

/-- A primary is an atom, or a power of one. -/
theorem primary_sound {t : SyntaxTree}
    (h : rule .primary (⟨w⟩ : Words last) = .ok t ⟨rest⟩) : ReadsUpTo last .primary w t rest := by
  have h : Parser.primary rules (⟨w⟩ : Words last) = .ok t ⟨rest⟩ := h
  obtain ⟨base, ⟨v⟩, hatom, -⟩ := Parser.bind_eq_ok.mp (primary_eq ▸ h)
  have hbase := atom_sound hlast ih hatom
  have hlength := hbase.length_lt
  obtain ⟨ts, rfl, hopen, hts⟩ := hbase
  by_cases hcaret : nextKind v = .caret
  · obtain ⟨caret, v, rfl, hkind⟩ := exists_cons_of_nextKind (w := v) (by simp [hcaret])
    rw [primary_of_power hatom hcaret] at h
    obtain ⟨exponent, ⟨v'⟩, hfactor, hpure⟩ := Parser.bind_eq_ok.mp h
    cases hpure
    have hv : v.length < (ts ++ caret :: v).length := by simp; omega
    obtain ⟨us, rfl, hend, hus⟩ := (ih v hv).rule .factor _ _ (by simp) hfactor
    exact ⟨ts ++ caret :: us, by simp, hend, .power hts hcaret hus⟩
  · rw [primary_of_atom hlast hatom hcaret] at h
    cases h
    exact ⟨ts, rfl, fun hc => hc.elim hopen hcaret, .primary hts⟩

/-- A factor is a primary, or a sign and the factor behind it, as `Operand` tells. -/
theorem factor_sound {t : SyntaxTree}
    (h : rule .factor (⟨w⟩ : Words last) = .ok t ⟨rest⟩) : ReadsUpTo last .factor w t rest := by
  have h : (rules : Parser.Rules (Words last)).factor ⟨w⟩ = .ok t ⟨rest⟩ := h
  by_cases hsign : (nextKind w).isSign
  · obtain ⟨sign, v, rfl, hkind⟩ := exists_cons_of_nextKind (w := w) (by
      intro hend
      simp [hend, TokenKind.isSign] at hsign)
    by_cases hoperand : Operand (RuleSkips last) v
    · -- The sign is read as the first token of a primary, and that has asked about `v`.
      rw [factor_operand hlast hsign hoperand] at h
      obtain ⟨ts, hts, hend, hread⟩ := primary_sound hlast ih h
      refine ⟨ts, hts, hend, .factor hread fun first us hfirst _ => ?_⟩
      rw [hfirst, List.cons_append, List.cons.injEq] at hts
      rw [← hts.2]
      exact hoperand
    · -- A sign that is no operand has a factor behind it.
      obtain ⟨v', operand, hfactor⟩ := Classical.not_not.mp fun hno => hoperand (.inr hno)
      rw [factor_unary hlast hsign hoperand hfactor] at h
      cases h
      obtain ⟨ts, rfl, hend, hread⟩ := (ih v (by simp)).rule .factor _ _ (by simp) hfactor
      exact ⟨sign :: ts, rfl, hend, .signed hsign hread hoperand⟩
  · rw [factor_of_not hlast hsign] at h
    obtain ⟨ts, rfl, hend, hread⟩ := primary_sound hlast ih h
    refine ⟨ts, rfl, hend, .factor hread fun first us hfirst hkind => ?_⟩
    subst hfirst
    exact absurd hkind hsign

/-- More factors are multiplied to what stands before them, one by one. -/
theorem moreFactors_sound {left t : SyntaxTree}
    (h : (rules : Parser.Rules (Words last)).moreFactors left ⟨w⟩ = .ok t ⟨rest⟩)
    (hw : ¬Continues w) :
    ∃ ts, w = ts ++ rest ∧ Ends .term rest ∧ ∀ us,
      ReadsWith (RuleSkips last) .term us w left →
        ReadsWith (RuleSkips last) .term (us ++ ts) rest t := by
  by_cases hjoins : (nextKind w).joinsFactors
  · obtain ⟨operator, v, rfl, hkind⟩ := exists_cons_of_nextKind (w := w) (by
      intro hend
      simp [hend, TokenKind.joinsFactors] at hjoins)
    rw [moreFactors_cons hlast hjoins] at h
    obtain ⟨right, ⟨v'⟩, hfactor, hrest⟩ := Parser.bind_eq_ok.mp h
    have hright := (ih v (by simp)).rule .factor _ _ (by simp) hfactor
    have hlength := hright.length_lt
    obtain ⟨ts, rfl, hend, hts⟩ := hright
    obtain ⟨us, rfl, hend, hmore⟩ :=
      (ih v' (by rw [List.length_cons]; omega)).moreFactors _ _ _ hrest hend
    refine ⟨operator :: ts ++ us, by simp, hend, fun vs hvs => ?_⟩
    -- The product is the left operand of the factors behind it.
    have hproduct := hmore _ (.product (by simpa using hvs) hjoins hts)
    simpa using hproduct
  · rw [moreFactors_of_not hlast hjoins] at h
    cases h
    exact ⟨[], rfl, ⟨hw, hjoins⟩, fun us hus => by simpa using hus⟩

/-- A term is a factor and more factors. -/
theorem term_sound {t : SyntaxTree}
    (h : rule .term (⟨w⟩ : Words last) = .ok t ⟨rest⟩) : ReadsUpTo last .term w t rest := by
  have h : (rules : Parser.Rules (Words last)).term ⟨w⟩ = .ok t ⟨rest⟩ := h
  rw [term_eq hlast] at h
  obtain ⟨left, ⟨v⟩, hfactor, hrest⟩ := Parser.bind_eq_ok.mp h
  have hleft := factor_sound hlast ih hfactor
  have hlength := hleft.length_lt
  obtain ⟨ts, rfl, hend, hts⟩ := hleft
  obtain ⟨us, rfl, hend, hmore⟩ := (ih v hlength).moreFactors _ _ _ hrest hend
  exact ⟨ts ++ us, by simp, hend, hmore ts (.term hts)⟩

/-- More terms are added to what stands before them, one by one. -/
theorem moreTerms_sound {left t : SyntaxTree}
    (h : (rules : Parser.Rules (Words last)).moreTerms left ⟨w⟩ = .ok t ⟨rest⟩)
    (hw : Ends .term w) :
    ∃ ts, w = ts ++ rest ∧ Ends .expression rest ∧ ∀ us,
      ReadsWith (RuleSkips last) .expression us w left →
        ReadsWith (RuleSkips last) .expression (us ++ ts) rest t := by
  by_cases hsign : (nextKind w).isSign
  · obtain ⟨operator, v, rfl, hkind⟩ := exists_cons_of_nextKind (w := w) (by
      intro hend
      simp [hend, TokenKind.isSign] at hsign)
    rw [moreTerms_cons hlast hsign] at h
    obtain ⟨right, ⟨v'⟩, hterm, hrest⟩ := Parser.bind_eq_ok.mp h
    have hright := (ih v (by simp)).rule .term _ _ (by simp) hterm
    have hlength := hright.length_lt
    obtain ⟨ts, rfl, hend, hts⟩ := hright
    obtain ⟨us, rfl, hend, hmore⟩ :=
      (ih v' (by rw [List.length_cons]; omega)).moreTerms _ _ _ hrest hend
    refine ⟨operator :: ts ++ us, by simp, hend, fun vs hvs => ?_⟩
    -- The sum is the left operand of the terms behind it.
    have hsum := hmore _ (.sum (by simpa using hvs) hsign hts)
    simpa using hsum
  · rw [moreTerms_of_not hlast hsign] at h
    cases h
    exact ⟨[], rfl, ⟨hw.1, hw.2, hsign⟩, fun us hus => by simpa using hus⟩

/-- An expression is a term and more terms. -/
theorem expression_sound {t : SyntaxTree}
    (h : rule .expression (⟨w⟩ : Words last) = .ok t ⟨rest⟩) :
    ReadsUpTo last .expression w t rest := by
  have h : (rules : Parser.Rules (Words last)).expression ⟨w⟩ = .ok t ⟨rest⟩ := h
  rw [expression_eq hlast] at h
  obtain ⟨left, ⟨v⟩, hterm, hrest⟩ := Parser.bind_eq_ok.mp h
  have hleft := term_sound hlast ih hterm
  have hlength := hleft.length_lt
  obtain ⟨ts, rfl, hend, hts⟩ := hleft
  obtain ⟨us, rfl, hend, hmore⟩ := (ih v hlength).moreTerms _ _ _ hrest hend
  exact ⟨ts ++ us, by simp, hend, hmore ts (.expression hts)⟩

/-- More arguments are expressions with a comma before each. -/
theorem moreArguments_sound {trees : List SyntaxTree}
    (h : (rules : Parser.Rules (Words last)).moreArguments ⟨w⟩ = .ok trees ⟨rest⟩) :
    ∃ ts, w = ts ++ rest ∧ ReadsMore (RuleSkips last) ts rest trees := by
  by_cases hcomma : nextKind w = .comma
  · obtain ⟨comma, v, rfl, hkind⟩ := exists_cons_of_nextKind (w := w) (by simp [hcomma])
    rw [moreArguments_cons hlast hcomma] at h
    obtain ⟨tree, ⟨v'⟩, hexpression, hrest⟩ := Parser.bind_eq_ok.mp h
    obtain ⟨more, ⟨v''⟩, hmore, hpure⟩ := Parser.bind_eq_ok.mp hrest
    cases hpure
    have hfirst := (ih v (by simp)).rule .expression _ _ (by simp) hexpression
    have hlength := hfirst.length_lt
    obtain ⟨ts, rfl, -, hts⟩ := hfirst
    obtain ⟨us, rfl, hus⟩ := (ih v' (by rw [List.length_cons]; omega)).moreArguments _ _ hmore
    exact ⟨comma :: ts ++ us, by simp, .cons hcomma hts hus⟩
  · rw [moreArguments_of_ne hlast hcomma] at h
    cases h
    exact ⟨[], rfl, .nil⟩

end

section

variable (hlast : last.kind = .endOfFile)
include hlast

/-- What the rules read from any list of tokens is derived by its start. -/
theorem soundOn (w : List Token) : SoundOn last w := by
  induction hn : w.length using Nat.strongRecOn generalizing w with
  | ind n ih =>
    subst hn
    have ih : ∀ v : List Token, v.length < w.length → SoundOn last v := fun v hv =>
      ih v.length hv v rfl
    exact {
      rule := fun p t rest hp h =>
        match p with
        | .atom => atom_sound hlast ih h
        | .primary => primary_sound hlast ih h
        | .factor => factor_sound hlast ih h
        | .term => term_sound hlast ih h
        | .expression => expression_sound hlast ih h
        | .complete => absurd rfl hp
      calls := fun _ _ _ h => calls_sound hlast ih h
      moreArguments := fun _ _ h => moreArguments_sound hlast ih h
      moreFactors := fun _ _ _ h hw => moreFactors_sound hlast ih h hw
      moreTerms := fun _ _ _ h hw => moreTerms_sound hlast ih h hw }

/-- Where a production derives the first tokens and ends, its rule reads them. -/
theorem rule_of_reads {p : Production} {ts rest : List Token} {t : SyntaxTree}
    (h : ReadsWith (RuleSkips last) p ts rest t) (hend : Ends p rest) :
    rule p (⟨ts ++ rest⟩ : Words last) = .ok t ⟨rest⟩ := by
  have hreaches := reaches_of_reads hlast h
  cases p with
  | atom => exact hreaches.trans (calls_of_ne hlast hend t)
  | primary => exact hreaches hend
  | factor => exact hreaches hend
  | term => exact (hreaches hend.1).trans (moreFactors_of_not hlast hend.2 t)
  | expression => exact hreaches.expression_eq_ok hlast hend.1 hend.2.1 hend.2.2
  | complete =>
    obtain rfl : rest = [] := hend
    have hexpression : (rules : Parser.Rules (Words last)).expression ⟨ts ++ []⟩ = .ok t ⟨[]⟩ :=
      hreaches
    have hexpect : Parser.expect .endOfFile (⟨[]⟩ : Words last) = .ok last ⟨[]⟩ := by
      show (if last.kind = .endOfFile then pure last else throw ⟨[.endOfFile], last⟩ :
        Parser (Words last) Token) ⟨[]⟩ = _
      rw [if_pos hlast]
      rfl
    show (rules.expression >>= fun tree => discard (Parser.expect .endOfFile) >>= fun _ =>
      pure tree : Parser (Words last) SyntaxTree) ⟨ts ++ []⟩ = _
    rw [Parser.bind_of_ok hexpression, Parser.discard_bind, Parser.bind_of_ok hexpect]
    rfl

/-- The rules end factors where the grammar of the parser ends them. -/
theorem ruleSkips_eq : RuleSkips last = Skips := by
  have hsettled : Settled (RuleSkips last) := by
    intro w rest
    constructor
    · rintro ⟨t, h⟩
      obtain ⟨ts, hts, hend, hread⟩ := (soundOn hlast w).rule .factor t rest (by simp) h
      exact ⟨ts, t, hts, hend, hread⟩
    · rintro ⟨ts, t, rfl, hend, hread⟩
      exact ⟨t, rule_of_reads hlast (p := .factor) hread hend⟩
  exact hsettled.unique settled_skips

/-- A rule succeeds exactly with what its production derives at the start of the tokens, up to
where the production cannot go on. -/
theorem rule_eq_ok_iff {w rest : List Token} (hw : ∀ token ∈ w, token.kind ≠ .endOfFile)
    (p : Production) (t : SyntaxTree) :
    rule p (⟨w⟩ : Words last) = .ok t ⟨rest⟩ ↔
      ∃ ts, w = ts ++ rest ∧ Ends p rest ∧ Reads p ts rest t := by
  rw [Reads, ← ruleSkips_eq hlast]
  constructor
  · intro h
    by_cases hp : p = .complete
    · subst hp
      have h : (rules.expression >>= fun tree => discard (Parser.expect .endOfFile) >>= fun _ =>
          pure tree : Parser (Words last) SyntaxTree) ⟨w⟩ = .ok t ⟨rest⟩ := h
      simp only [Parser.discard_bind] at h
      obtain ⟨tree, ⟨v⟩, hexpression, h⟩ := Parser.bind_eq_ok.mp h
      obtain ⟨token, s, hexpect, hpure⟩ := Parser.bind_eq_ok.mp h
      cases hpure
      obtain ⟨ts, rfl, -, hread⟩ := (soundOn hlast w).rule .expression _ _ (by simp) hexpression
      obtain ⟨hkind, hrest⟩ := expect_eq_ok hexpect
      -- The token that is expected is not in the list, so the list has been used up.
      cases v with
      | nil =>
        cases hrest
        exact ⟨ts, rfl, rfl, .complete hread⟩
      | cons token v => exact absurd hkind (hw token (by simp))
    · exact (soundOn hlast w).rule p t rest hp h
  · rintro ⟨ts, rfl, hend, hread⟩
    exact rule_of_reads hlast hread hend

end

end LineCalc.Words
