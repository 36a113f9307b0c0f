import LineCalc.Proofs.Parsing.Soundness

/-!
# Where a parser fails

A parser that fails has come to a token that it cannot go on with, and has consumed this token and
nothing behind it (`Words.Blocked`). This is the token that the error tells, and the kinds that are
expected there are one of three lists, in which the kind of the token is not. What a failed attempt
has consumed is put back, so however many attempts have failed before, the error that gets out is
the one of the last step of the parser itself.

On lists of tokens the proof is an induction on how many there are, for all rules together
(`Words.BlockedOn`), as it is for what they read. From there it comes to every place of a text that
a parser can get to (`read_fails`).
-/

namespace LineCalc

open LineCalc.Parser (Production)

namespace Parser

/-- A computation that fails does so in its first part, or in its second part behind the first. -/
theorem bind_eq_error {σ α β : Type} {p : Parser σ α} {f : α → Parser σ β} {s s'' : σ}
    {e : ParseError} :
    (p >>= f) s = .error e s'' ↔
      p s = .error e s'' ∨ ∃ a s', p s = .ok a s' ∧ f a s' = .error e s'' := by
  rw [bind_apply]
  cases p s with
  | ok a s' => simp [and_assoc]
  | error e' s' => simp

/-- The kinds that an expression can expect where it fails: those of an atom, or the end of a group
or of a call. -/
def innerExpectations : List (List TokenKind) :=
  [atomKinds, [.rightParenthesis]]

/-- The kinds that a production can expect where it fails. Only a complete expression expects the
end of the text. -/
def expectations : Production → List (List TokenKind)
  | .complete => innerExpectations ++ [[.endOfFile]]
  | _ => innerExpectations

end Parser

namespace Words

variable {last : Token}

/-! ## Failures on lists of tokens -/

/-- On the way through `w` there are tokens of which the first one is none of those that are
expected. It has been consumed, and `rest` is left. -/
structure Blocked (last : Token) (choices : List (List TokenKind)) (w : List Token)
    (error : ParseError) (rest : List Token) : Prop where
  /-- What is expected is one of the choices. -/
  expected : error.expected ∈ choices
  /-- The token found is not expected. -/
  unexpected : error.found.kind ∉ error.expected
  /-- The token found comes at some place of the list or behind it, and has been consumed. -/
  place : ∃ v, v <:+ w ∧ error.found = v.headD last ∧ rest = v.tail

/-- Whenever a computation fails on some tokens, it is blocked there. -/
def FailsBlocked (last : Token) (choices : List (List TokenKind)) (w : List Token) {α : Type}
    (p : Parser (Words last) α) : Prop :=
  ∀ error rest, p ⟨w⟩ = .error error ⟨rest⟩ → Blocked last choices w error rest

section

variable {choices : List (List TokenKind)} {α β : Type} {w v : List Token}

/-- There are more tokens on the way if there are more before them. -/
theorem Blocked.of_suffix {error : ParseError} {rest : List Token}
    (h : Blocked last choices v error rest) (hv : v <:+ w) :
    Blocked last choices w error rest := by
  obtain ⟨hexpected, hunexpected, u, hu, hfound, hrest⟩ := h
  exact ⟨hexpected, hunexpected, u, hu.trans hv, hfound, hrest⟩

/-- A computation that does not fail is not blocked. -/
theorem FailsBlocked.of_ok {p : Parser (Words last) α} {a : α} {s : Words last}
    (h : p ⟨w⟩ = .ok a s) : FailsBlocked last choices w p := by
  intro error rest hp
  rw [h] at hp
  cases hp

/-- A computation that goes on as another one from a later place is blocked where that is. -/
theorem FailsBlocked.of_eq {p q : Parser (Words last) α} (hq : FailsBlocked last choices v q)
    (hv : v <:+ w) (h : p ⟨w⟩ = q ⟨v⟩) : FailsBlocked last choices w p := by
  intro error rest hp
  exact (hq error rest (h ▸ hp)).of_suffix hv

/-- One computation after the other is blocked where the first one is, or where the second one is
behind what the first has consumed. -/
theorem FailsBlocked.bind {p : Parser (Words last) α} {f : α → Parser (Words last) β}
    (hp : FailsBlocked last choices w p)
    (hf : ∀ a v, p ⟨w⟩ = .ok a ⟨v⟩ → v <:+ w ∧ FailsBlocked last choices v (f a)) :
    FailsBlocked last choices w (p >>= f) := by
  intro error rest h
  rcases Parser.bind_eq_error.mp h with h | ⟨a, ⟨v⟩, hok, h⟩
  · exact hp error rest h
  · obtain ⟨hv, hblocked⟩ := hf a v hok
    exact (hblocked error rest h).of_suffix hv

/-- Behind a computation that is the last to fail there is only its value. -/
theorem FailsBlocked.bind_pure {p : Parser (Words last) α} {f : α → β}
    (hp : FailsBlocked last choices w p) :
    FailsBlocked last choices w (p >>= fun a => pure (f a)) := by
  intro error rest h
  rcases Parser.bind_eq_error.mp h with h | ⟨a, s, -, h⟩
  · exact hp error rest h
  · cases h

/-- A token that is expected and does not come blocks. -/
theorem failsBlocked_expect {kind : TokenKind} (hkind : [kind] ∈ choices) :
    FailsBlocked last choices w (Parser.expect kind) := by
  intro error rest h
  have h : (if (w.headD last).kind = kind then pure (w.headD last)
      else throw ⟨[kind], w.headD last⟩ : Parser (Words last) Token) ⟨w.tail⟩ =
        .error error ⟨rest⟩ := h
  by_cases hhead : (w.headD last).kind = kind
  · rw [if_pos hhead] at h
    cases h
  · rw [if_neg hhead] at h
    cases h
    exact ⟨hkind, by simpa using hhead, w, List.suffix_refl w, rfl, rfl⟩

/-- A token that is expected leads on, and what follows is blocked where it is by itself. -/
theorem FailsBlocked.expect_bind {kind : TokenKind} (hkind : [kind] ∈ choices)
    {p : Parser (Words last) β} (hp : FailsBlocked last choices w.tail p) :
    FailsBlocked last choices w (Parser.expect kind >>= fun _ => p) := by
  refine .bind (failsBlocked_expect hkind) fun token v hexpect => ?_
  obtain ⟨-, hv⟩ := expect_eq_ok hexpect
  cases hv
  exact ⟨List.tail_suffix w, hp⟩

end

/-! ## The rules -/

/-- Whenever a rule fails on a list of tokens it is blocked there. -/
structure BlockedOn (last : Token) (w : List Token) : Prop where
  rule : ∀ p, p ≠ .complete →
    FailsBlocked last Parser.innerExpectations w (rule p : Parser (Words last) _)
  calls : ∀ callee, FailsBlocked last Parser.innerExpectations w
    ((rules : Parser.Rules (Words last)).calls callee)
  moreArguments : FailsBlocked last Parser.innerExpectations w
    (rules : Parser.Rules (Words last)).moreArguments
  moreFactors : ∀ left, FailsBlocked last Parser.innerExpectations w
    ((rules : Parser.Rules (Words last)).moreFactors left)
  moreTerms : ∀ left, FailsBlocked last Parser.innerExpectations w
    ((rules : Parser.Rules (Words last)).moreTerms left)

/-- A group and a call can fail at their end. -/
theorem closing_mem_innerExpectations : [TokenKind.rightParenthesis] ∈ Parser.innerExpectations :=
  List.mem_cons_of_mem _ List.mem_cons_self

section

variable (hlast : last.kind = .endOfFile) {w : List Token}
include hlast

/-- What a rule leaves is the end of the tokens, and shorter. -/
theorem suffix_of_rule {p : Production} (hp : p ≠ .complete) {t : SyntaxTree} {v : List Token}
    (h : rule p (⟨w⟩ : Words last) = .ok t ⟨v⟩) : v <:+ w ∧ v.length < w.length := by
  have hread := (soundOn hlast w).rule p t v hp h
  refine ⟨?_, hread.length_lt⟩
  obtain ⟨ts, rfl, -⟩ := hread
  exact List.suffix_append ts v

/-- A first argument that fails is none, so arguments are blocked at a later one. -/
theorem arguments_blocked (ih : ∀ v, v.length ≤ w.length → BlockedOn last v) :
    FailsBlocked last Parser.innerExpectations w
      (Parser.arguments (rules : Parser.Rules (Words last))) := by
  cases hfirst : (rules : Parser.Rules (Words last)).expression ⟨w⟩ with
  | error e s => exact .of_ok (arguments_of_error hfirst)
  | ok t s =>
    obtain ⟨v⟩ := s
    obtain ⟨hv, hlength⟩ := suffix_of_rule hlast (p := .expression) (by simp) hfirst
    have hmore := (ih v (Nat.le_of_lt hlength)).moreArguments
    exact .of_eq hmore.bind_pure hv (arguments_of_ok hlast hfirst)

variable (ih : ∀ v, v.length < w.length → BlockedOn last v)
include ih

/-- Calls are blocked in the arguments of one of them, or where these should end. -/
theorem calls_blocked (callee : SyntaxTree) : FailsBlocked last Parser.innerExpectations w
    ((rules : Parser.Rules (Words last)).calls callee) := by
  by_cases hopen : nextKind w = .leftParenthesis
  · obtain ⟨opening, v, rfl, hkind⟩ := exists_cons_of_nextKind (w := w) (by simp [hopen])
    have harguments := arguments_blocked hlast (w := v) fun u hu => ih u (by simp; omega)
    refine .of_eq (.bind harguments fun arguments u hu => ?_) (List.suffix_cons opening v)
      (calls_cons hlast hopen callee v)
    obtain ⟨ts, rfl, -⟩ := arguments_sound hlast (fun u _ => soundOn hlast u) hu
    have hmore := (ih u.tail (by simp; omega)).calls (.call callee arguments)
    exact ⟨List.suffix_append ts u, hmore.expect_bind closing_mem_innerExpectations⟩
  · exact .of_ok (calls_of_ne hlast hopen callee)

/-- An atom is blocked at a token that starts none, or in its group, or in its calls. -/
theorem atom_blocked : FailsBlocked last Parser.innerExpectations w
    (rule .atom : Parser (Words last) _) := by
  by_cases hleaf : nextKind w = .number ∨ nextKind w = .identifier ∨ (nextKind w).isOperator
  · obtain ⟨token, v, rfl, hkind⟩ := exists_cons_of_nextKind (w := w) (by
      intro hend
      simp [hend, TokenKind.isOperator, TokenKind.isSign, TokenKind.joinsFactors] at hleaf)
    exact .of_eq ((ih v (by simp)).calls _) (List.suffix_cons token v) (atom_leaf hlast hleaf v)
  · by_cases hopen : nextKind w = .leftParenthesis
    · obtain ⟨opening, v, rfl, hkind⟩ := exists_cons_of_nextKind (w := w) (by simp [hopen])
      have hinner := (ih v (by simp)).rule .expression (by simp)
      refine .of_eq (.bind hinner fun tree u hu => ?_) (List.suffix_cons opening v)
        (atom_group hlast hopen v)
      obtain ⟨hsuffix, hlength⟩ := suffix_of_rule hlast (p := .expression) (by simp) hu
      have hmore := (ih u.tail (by simp; omega)).calls tree
      exact ⟨hsuffix, hmore.expect_bind closing_mem_innerExpectations⟩
    · simp only [not_or] at hleaf
      intro error rest h
      have h : Parser.atom rules (⟨w⟩ : Words last) = .error error ⟨rest⟩ := h
      rw [atom_stuck hlast hleaf.1 hleaf.2.1 hleaf.2.2 hopen] at h
      cases h
      refine ⟨List.mem_cons_self, ?_, w, List.suffix_refl w, rfl, rfl⟩
      -- The kinds that start an atom are those that have been ruled out.
      have hkind := kind_headD hlast w
      generalize w.headD last = token at hkind
      simp only [Parser.atomKinds, hkind]
      generalize nextKind w = kind at hleaf hopen
      cases kind <;>
        simp_all [TokenKind.isOperator, TokenKind.isSign, TokenKind.joinsFactors]

/-- A primary is blocked in its atom or in its exponent. -/
theorem primary_blocked : FailsBlocked last Parser.innerExpectations w
    (rule .primary : Parser (Words last) _) := by
  intro error rest h
  have h : Parser.primary rules (⟨w⟩ : Words last) = .error error ⟨rest⟩ := h
  cases hatom : Parser.atom (rules : Parser.Rules (Words last)) ⟨w⟩ with
  | error e s =>
    have hprimary := h
    rw [primary_eq, Parser.bind_apply, hatom] at hprimary
    cases hprimary
    exact atom_blocked hlast ih _ _ hatom
  | ok base s =>
    obtain ⟨v⟩ := s
    obtain ⟨hv, hlength⟩ := suffix_of_rule hlast (p := .atom) (by simp) hatom
    by_cases hcaret : nextKind v = .caret
    · obtain ⟨caret, u, rfl, hkind⟩ := exists_cons_of_nextKind (w := v) (by simp [hcaret])
      rw [primary_of_power hatom hcaret] at h
      have hfactor := (ih u (by simp at hlength; omega)).rule .factor (by simp)
      exact (hfactor.bind_pure error rest h).of_suffix ((List.suffix_cons caret u).trans hv)
    · rw [primary_of_atom hlast hatom hcaret] at h
      cases h

/-- A factor fails only as a primary: a sign with a factor behind it is a prefix, and otherwise it
is read as an operand. -/
theorem factor_blocked : FailsBlocked last Parser.innerExpectations w
    (rule .factor : Parser (Words last) _) := by
  have hprimary := primary_blocked hlast ih
  by_cases hsign : (nextKind w).isSign
  · obtain ⟨sign, v, rfl, hkind⟩ := exists_cons_of_nextKind (w := w) (by
      intro hend
      simp [hend, TokenKind.isSign] at hsign)
    by_cases hoperand : Operand (RuleSkips last) v
    · exact .of_eq hprimary (List.suffix_refl _) (factor_operand hlast hsign hoperand)
    · obtain ⟨v', operand, hfactor⟩ := Classical.not_not.mp fun hno => hoperand (.inr hno)
      exact .of_ok (factor_unary hlast hsign hoperand hfactor)
  · exact .of_eq hprimary (List.suffix_refl _) (factor_of_not hlast hsign)

/-- More factors are blocked in one of them. -/
theorem moreFactors_blocked (left : SyntaxTree) : FailsBlocked last Parser.innerExpectations w
    ((rules : Parser.Rules (Words last)).moreFactors left) := by
  by_cases hjoins : (nextKind w).joinsFactors
  · obtain ⟨operator, v, rfl, hkind⟩ := exists_cons_of_nextKind (w := w) (by
      intro hend
      simp [hend, TokenKind.joinsFactors] at hjoins)
    have hfactor := (ih v (by simp)).rule .factor (by simp)
    refine .of_eq (.bind hfactor fun right u hu => ?_) (List.suffix_cons operator v)
      (moreFactors_cons hlast hjoins left v)
    obtain ⟨hsuffix, hlength⟩ := suffix_of_rule hlast (p := .factor) (by simp) hu
    exact ⟨hsuffix, (ih u (by simp; omega)).moreFactors _⟩
  · exact .of_ok (moreFactors_of_not hlast hjoins left)

/-- A term is blocked in its first factor or in one of the others. -/
theorem term_blocked : FailsBlocked last Parser.innerExpectations w
    (rule .term : Parser (Words last) _) := by
  have hfactor := factor_blocked hlast ih
  refine .of_eq (.bind hfactor fun left u hu => ?_) (List.suffix_refl w)
    (congrFun (term_eq hlast) ⟨w⟩)
  obtain ⟨hsuffix, hlength⟩ := suffix_of_rule hlast (p := .factor) (by simp) hu
  exact ⟨hsuffix, (ih u hlength).moreFactors left⟩

/-- More terms are blocked in one of them. -/
theorem moreTerms_blocked (left : SyntaxTree) : FailsBlocked last Parser.innerExpectations w
    ((rules : Parser.Rules (Words last)).moreTerms left) := by
  by_cases hsign : (nextKind w).isSign
  · obtain ⟨operator, v, rfl, hkind⟩ := exists_cons_of_nextKind (w := w) (by
      intro hend
      simp [hend, TokenKind.isSign] at hsign)
    have hterm := (ih v (by simp)).rule .term (by simp)
    refine .of_eq (.bind hterm fun right u hu => ?_) (List.suffix_cons operator v)
      (moreTerms_cons hlast hsign left v)
    obtain ⟨hsuffix, hlength⟩ := suffix_of_rule hlast (p := .term) (by simp) hu
    exact ⟨hsuffix, (ih u (by simp; omega)).moreTerms _⟩
  · exact .of_ok (moreTerms_of_not hlast hsign left)

/-- An expression is blocked in its first term or in one of the others. -/
theorem expression_blocked : FailsBlocked last Parser.innerExpectations w
    (rule .expression : Parser (Words last) _) := by
  have hterm := term_blocked hlast ih
  refine .of_eq (.bind hterm fun left u hu => ?_) (List.suffix_refl w)
    (congrFun (expression_eq hlast) ⟨w⟩)
  obtain ⟨hsuffix, hlength⟩ := suffix_of_rule hlast (p := .term) (by simp) hu
  exact ⟨hsuffix, (ih u hlength).moreTerms left⟩

/-- More arguments are blocked in one of them. -/
theorem moreArguments_blocked : FailsBlocked last Parser.innerExpectations w
    (rules : Parser.Rules (Words last)).moreArguments := by
  by_cases hcomma : nextKind w = .comma
  · obtain ⟨comma, v, rfl, hkind⟩ := exists_cons_of_nextKind (w := w) (by simp [hcomma])
    have hexpression := (ih v (by simp)).rule .expression (by simp)
    refine .of_eq (.bind hexpression fun argument u hu => ?_) (List.suffix_cons comma v)
      (moreArguments_cons hlast hcomma v)
    obtain ⟨hsuffix, hlength⟩ := suffix_of_rule hlast (p := .expression) (by simp) hu
    exact ⟨hsuffix, (ih u (by simp; omega)).moreArguments.bind_pure⟩
  · exact .of_ok (moreArguments_of_ne hlast hcomma)

end

section

variable (hlast : last.kind = .endOfFile)
include hlast

/-- On every list of tokens the rules are blocked where they fail. -/
theorem blockedOn (w : List Token) : BlockedOn last w := by
  induction hn : w.length using Nat.strongRecOn generalizing w with
  | ind n ih =>
    subst hn
    have ih : ∀ v : List Token, v.length < w.length → BlockedOn last v := fun v hv =>
      ih v.length hv v rfl
    exact {
      rule := fun p hp =>
        match p with
        | .atom => atom_blocked hlast ih
        | .primary => primary_blocked hlast ih
        | .factor => factor_blocked hlast ih
        | .term => term_blocked hlast ih
        | .expression => expression_blocked hlast ih
        | .complete => absurd rfl hp
      calls := calls_blocked hlast ih
      moreArguments := moreArguments_blocked hlast ih
      moreFactors := moreFactors_blocked hlast ih
      moreTerms := moreTerms_blocked hlast ih }

/-- A production that fails is blocked, and expects what it can expect. -/
theorem rule_blocked (p : Production) (w : List Token) :
    FailsBlocked last (Parser.expectations p) w (rule p : Parser (Words last) _) := by
  by_cases hp : p = .complete
  · subst hp
    have hinner := (blockedOn hlast w).rule .expression (by simp)
    have hexpression : FailsBlocked last (Parser.expectations .complete) w
        (rules : Parser.Rules (Words last)).expression := fun error rest h =>
      { hinner error rest h with
        expected := List.mem_append_left _ (hinner error rest h).expected }
    have hend : [TokenKind.endOfFile] ∈ Parser.expectations .complete :=
      List.mem_append_right _ List.mem_cons_self
    refine hexpression.bind fun tree v hv => ?_
    obtain ⟨hsuffix, -⟩ := suffix_of_rule hlast (p := .expression) (by simp) hv
    rw [Parser.discard_bind]
    exact ⟨hsuffix, (failsBlocked_expect hend).bind_pure⟩
  · have hinner := (blockedOn hlast w).rule p hp
    cases p <;> first | exact hinner | exact absurd rfl hp

end

end Words

/-! ## Places of a text -/

/-- What has been consumed up to a token and with it leaves what is behind the token. At the end of
a text that is the end again. -/
def Token.behind (token : Token) (after : List Token) : List Token :=
  if token.kind = .endOfFile then [token] else after

/-- On the way through the tokens of a text and their end, the token at which a rule is blocked is
one of them, and what is left are the tokens behind it. -/
theorem Words.Blocked.exists_split {last : Token} (hlast : last.kind = .endOfFile)
    {choices : List (List TokenKind)} {w rest : List Token} {error : ParseError}
    (h : Words.Blocked last choices w error rest) (hw : ∀ token ∈ w, token.kind ≠ .endOfFile) :
    ∃ ts after, w ++ [last] = ts ++ error.found :: after ∧
      rest ++ [last] = error.found.behind after := by
  obtain ⟨v, ⟨ts, rfl⟩, hfound, rfl⟩ := h.place
  unfold Token.behind
  rw [hfound]
  cases v with
  | nil =>
    -- The end of the text is consumed, and it comes again.
    refine ⟨ts, [], by simp, ?_⟩
    show [last] = if last.kind = .endOfFile then [last] else []
    rw [if_pos hlast]
  | cons token v =>
    have hend : token.kind ≠ .endOfFile := hw token (by simp)
    refine ⟨ts, v ++ [last], by simp, ?_⟩
    show v ++ [last] = if token.kind = .endOfFile then [token] else v ++ [last]
    rw [if_neg hend]

/-- At every place that can be reached, a parser that fails has found a token of its text that is at
this place or behind it. What it expects there are the kinds that start an atom, or the end of a
group or a call, or for a complete expression the end of the text, and the token is of none of these
kinds. The parser stands behind the token, or still at the end if the token is that. -/
theorem read_fails (source : String) :
    ∀ parsers, Reachable source parsers → ∀ s ∈ parsers, ∀ p error s',
      Parser.read p s = .error error s' →
        error.expected ∈ Parser.expectations p ∧ error.found.kind ∉ error.expected ∧
          ∃ before ts after, lex source = before ++ ts ++ error.found :: after ∧
            s.tokens = ts ++ error.found :: after ∧ s'.tokens = error.found.behind after := by
  obtain ⟨all, hlex, hall⟩ := lex_eq_append source
  intro parsers hparsers s hs p error s' hread
  obtain ⟨w, hw⟩ := hparsers.onTrack hlex hall s hs
  have hagrees := hw.read_agrees rfl hall p
  rw [hread] at hagrees
  generalize hrule : Words.rule p w = result at hagrees
  cases hagrees with
  | @error _ _ t htracks =>
    have hblocked := Words.rule_blocked rfl p w.list error t.list hrule
    have hkinds : ∀ token ∈ w.list, token.kind ≠ .endOfFile := fun token htoken =>
      hall token (hw.suffix.subset htoken)
    obtain ⟨ts, after, hsplit, hrest⟩ := hblocked.exists_split rfl hkinds
    -- What the parser has come past before it reads.
    obtain ⟨before, hbefore⟩ := hw.suffix
    refine ⟨hblocked.expected, hblocked.unexpected, before, ts, after, ?_, ?_, ?_⟩
    · rw [hlex, ← hbefore, List.append_assoc, hsplit, List.append_assoc]
    · rw [hw.tokens, hsplit]
    · rw [htracks.tokens, hrest]

set_option maxRecDepth 8000 in
/-- A sign that is taken for an operand. Its multiplication is tried with a group, as a first
argument and as a factor, and the comma in that fails them all and then the parser itself, which
stands before the second argument. -/
theorem read_fails_negated_call :
    let comma : Token := ⟨.comma, ",", 4⟩
    let behind : List Token := [⟨.number, "2", 5⟩, ⟨.rightParenthesis, ")", 6⟩, ⟨.minus, "-", 8⟩,
      ⟨.number, "3", 10⟩, ⟨.endOfFile, "", 11⟩]
    Parser.read .complete (Lookahead.ofString "-*(1,2) - 3") =
        .error ⟨[.rightParenthesis], comma⟩ ⟨⟨"-*(1,2) - 3".toList, 5⟩, none⟩ ∧
      TokenKind.comma ∉ [TokenKind.rightParenthesis] ∧
      ∃ before ts after, lex "-*(1,2) - 3" = before ++ ts ++ comma :: after ∧
        (Lookahead.ofString "-*(1,2) - 3").tokens = ts ++ comma :: after ∧ behind = after := by
  intro comma behind
  have hread : Parser.read .complete (Lookahead.ofString "-*(1,2) - 3") =
      .error ⟨[.rightParenthesis], comma⟩ ⟨⟨"-*(1,2) - 3".toList, 5⟩, none⟩ := by rfl
  obtain ⟨-, hunexpected, hplace⟩ :=
    read_fails "-*(1,2) - 3" _ .start _ (List.mem_singleton_self _) .complete _ _ hread
  exact ⟨hread, hunexpected, hplace⟩

end LineCalc
