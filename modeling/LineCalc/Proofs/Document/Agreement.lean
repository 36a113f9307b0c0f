import LineCalc.Document.Index
import LineCalc.Proofs.CommandLine.Answers
import LineCalc.Proofs.Parsing.Acceptance
import LineCalc.Proofs.Parsing.Leaves

/-!
# The index and the evaluator agree

The index of a line is made from its tokens, and the value of the line from its tree, but they tell
the same of it (`index_agrees`). A problem is what the parser fails with. If there is none, then
the names of the line are leaves of its tree in the same order, and the other leaves have values.
An evaluation comes to every leaf or fails earlier, so it fails if a name is not known, and where it
fails at a name, this is the first such name on the line.
-/

namespace LineCalc

/-! ## Lines -/

namespace Text

/-- A line goes on with characters that end no line. -/
theorem linesFrom_append {cs : List Char} (h : ∀ c ∈ cs, isLineEnd c = false)
    (line rest : List Char) : linesFrom line (cs ++ rest) = linesFrom (cs.reverse ++ line) rest := by
  induction cs generalizing line with
  | nil => rfl
  | cons c cs ih =>
    obtain ⟨hc, hcs⟩ := List.forall_mem_cons.mp h
    have hreturn : c ≠ '\r' := by
      rintro rfl
      cases hc
    rw [List.cons_append, linesFrom, if_neg (by simp [hc]), ih hcs, List.reverse_cons,
      List.append_assoc]
    · rfl
    · exact fun _ hcr => absurd hcr hreturn

/-- A text without line ends that is not empty is one line. -/
theorem lines_eq_singleton {cs : List Char} (h : ∀ c ∈ cs, isLineEnd c = false) (hne : cs ≠ []) :
    lines cs = [cs] := by
  have hline := linesFrom_append h [] []
  rw [List.append_nil, List.append_nil] at hline
  rw [lines, hline, linesFrom, if_neg (by simpa using hne), List.reverse_reverse]

end Text

namespace Document

/-! ## Names that are not known -/

/-- A token is a name that is not known. -/
def isUnbound (known : List String) (token : Token) : Bool :=
  token.kind = .identifier ∧ token.lexeme ∉ known

/-- A use of a name on the only line of a text. -/
def useOf (token : Token) : Use :=
  ⟨token.lexeme, 0, token.offset⟩

/-- Only names are not known. -/
theorem choosesNames_isUnbound (known : List String) : ChoosesNames (isUnbound known) := by
  intro token hkind
  simp [isUnbound, hkind]

/-- The uses of names that are not known are those of the tokens that are such names. -/
theorem filter_lineUses (known : List String) (line : String) :
    (Index.lineUses 0 line).filter (fun use => use.name ∉ known) =
      ((lex line).filter (isUnbound known)).map useOf := by
  unfold Index.lineUses
  induction lex line with
  | nil => rfl
  | cons token ts ih =>
    by_cases hname : token.kind = .identifier
    · by_cases hknown : token.lexeme ∈ known
      · simpa [isUnbound, hname, hknown] using ih
      · simpa [isUnbound, hname, hknown, useOf] using ih
    · simpa [isUnbound, hname] using ih

/-- The index of a text that is one line is the index of this line. -/
theorem ofText_eq {known : List String} {line : String}
    (hends : ∀ c ∈ line.toList, Text.isLineEnd c = false)
    (hblank : line.toList.all Text.isBlank = false) :
    Index.ofText known line = ⟨Index.lineProblems 0 line, Index.lineUses 0 line,
      ((lex line).filter (isUnbound known)).map useOf⟩ := by
  have hne : line.toList ≠ [] := by
    intro hnil
    simp [hnil] at hblank
  unfold Index.ofText
  rw [Text.lines_eq_singleton hends hne, ← filter_lineUses]
  simp [Index.ofLines, Index.ofLine, hblank, Index.append, Index.empty]

/-! ## Leaves without values -/

/-- A leaf has no value if it is a name that is not known, and only then. -/
theorem value_eq_error_iff {groups : List String} {line : String} {token : Token}
    (htoken : token ∈ lex line) (hleaf : token.isLeaf = true) {e : Failure Empty} :
    (Atom.ofToken token).value (Builtin.table groups) = .error e ↔
      isUnbound (Builtin.knownNames groups) token = true ∧
        e = .undefinedIdentifier token.lexeme := by
  rw [Atom.value_eq_error_iff]
  by_cases hnumber : token.kind = .number
  · simp [Atom.ofToken, isUnbound, hnumber]
  · by_cases hname : token.kind = .identifier
    · simp [Atom.ofToken_of_ne hnumber, isUnbound, hname, Builtin.get?_table_eq_none_iff]
    · -- What is left is an operator, and its symbol is bound.
      have hoperator : token.kind.isOperator := by
        simpa [Token.isLeaf, hnumber, hname] using hleaf
      obtain ⟨op, hkind⟩ := TokenKind.exists_operator hoperator
      have hop := lexeme_eq_symbol htoken hkind
      have hbound : op.symbol ∈ Builtin.knownNames groups :=
        (Builtin.mem_knownNames_iff groups _).mpr (.inl ⟨op, rfl⟩)
      simp [Atom.ofToken_of_ne hnumber, isUnbound, hname, Builtin.get?_table_eq_none_iff, hop,
        hbound]

section

variable {groups : List String} {line : String} {t : SyntaxTree} {ts : List Token}
  (hlex : lex line = ts ++ [Cursor.endToken line.toList]) (hreads : Reads .expression ts [] t)
include hlex hreads

/-- The leaves of the tree of a line have no values if they are names that are not known, and only
then. -/
theorem value_leaf_iff {token : Token} (htoken : token ∈ t.leaves) {e : Failure Empty} :
    (Atom.ofToken token).value (Builtin.table groups) = .error e ↔
      isUnbound (Builtin.knownNames groups) token = true ∧
        e = .undefinedIdentifier token.lexeme := by
  have hfilter := hreads.leaves_perm.mem_iff.mp htoken
  obtain ⟨hmem, hleaf⟩ := List.mem_filter.mp hfilter
  exact value_eq_error_iff (by rw [hlex]; exact List.mem_append_left _ hmem) hleaf

/-- If all leaves have values then all names of the line are known. -/
theorem filter_eq_nil_of_allValued
    (h : AllValued (Atom.value (Builtin.table (β := Empty) groups)) (t.map Atom.ofToken).leaves) :
    ts.filter (isUnbound (Builtin.knownNames groups)) = [] := by
  rw [← hreads.filter_leaves (choosesNames_isUnbound _), List.filter_eq_nil_iff]
  intro token htoken hunbound
  have hvalue := (value_leaf_iff hlex hreads htoken).mpr ⟨hunbound, rfl⟩
  obtain ⟨v, hv⟩ := h (Atom.ofToken token)
    (by rw [Tree.leaves_map]; exact List.mem_map_of_mem htoken)
  rw [hv] at hvalue
  cases hvalue

/-- The first leaf without a value is the first name of the line that is not known. -/
theorem filter_eq_cons_of_firstFails {e : Failure Empty}
    (h : FirstFails (Atom.value (Builtin.table groups)) (t.map Atom.ofToken).leaves e) :
    ∃ token rest, ts.filter (isUnbound (Builtin.knownNames groups)) = token :: rest ∧
      e = .undefinedIdentifier token.lexeme := by
  obtain ⟨before, a, after, hleaves, hbefore, ha⟩ := h
  rw [Tree.leaves_map] at hleaves
  obtain ⟨us, vs, hsplit, rfl, hvs⟩ := List.map_eq_append_iff.mp hleaves
  obtain ⟨token, ws, rfl, rfl, rfl⟩ := List.map_eq_cons_iff.mp hvs
  have hleaf : ∀ {u : Token}, u ∈ us ∨ u = token → u ∈ t.leaves := by
    intro u hu
    rw [hsplit]
    rcases hu with hu | rfl
    · exact List.mem_append_left _ hu
    · simp
  obtain ⟨hunbound, rfl⟩ := (value_leaf_iff hlex hreads (hleaf (.inr rfl))).mp ha
  -- The names before it are known, for they have values.
  have hknown : us.filter (isUnbound (Builtin.knownNames groups)) = [] := by
    rw [List.filter_eq_nil_iff]
    intro u hu hfails
    obtain ⟨v, hv⟩ := hbefore _ (List.mem_map_of_mem hu)
    have hvalue := (value_leaf_iff hlex hreads (hleaf (.inl hu))).mpr ⟨hfails, rfl⟩
    rw [hv] at hvalue
    cases hvalue
  refine ⟨token, ws.filter (isUnbound (Builtin.knownNames groups)), ?_, rfl⟩
  rw [← hreads.filter_leaves (choosesNames_isUnbound _), hsplit, List.filter_append, hknown,
    List.nil_append, List.filter_cons_of_pos hunbound]

end

/-! ## Agreement -/

/-- The problem of a line is what the parser fails with. -/
theorem lineProblems_eq (line : String) : Index.lineProblems 0 line =
    match parse line with
    | .ok _ => []
    | .error error =>
      [⟨0, error.found.offset, max error.found.lexeme.length 1, error.message⟩] := by
  unfold Index.lineProblems parse
  cases parseTokens line <;> rfl

section Numerics

variable [Numerics]

/-- An expression fails at the first name that is not known, or before it comes to that. Where all
names are known it fails at none. -/
theorem result_agrees {groups : List String} {line : String} {expr : Expr} {ts : List Token}
    (hlex : lex line = ts ++ [Cursor.endToken line.toList]) (hparse : parse line = .ok expr) :
    match ts.filter (isUnbound (Builtin.knownNames groups)) with
    | [] => ∀ name, CommandLine.result groups expr ≠ .error (.undefinedIdentifier name)
    | token :: _ => ∃ failure, CommandLine.result groups expr = .error failure ∧
        ∀ name, failure = .undefinedIdentifier name → name = token.lexeme := by
  obtain ⟨t, hreads, rfl⟩ := (parse_eq_ok_iff hlex (kind_ne_of_lex_eq hlex) expr).mp hparse
  have hyields := CommandLine.evaluate_yields groups (t.map Atom.ofToken)
  -- A name that fails is the first leaf without a value, for calls fail otherwise.
  have hname : ∀ name, CommandLine.result groups (t.map Atom.ofToken) =
      .error (.undefinedIdentifier name) →
      ∃ token rest, ts.filter (isUnbound (Builtin.knownNames groups)) = token :: rest ∧
        name = token.lexeme := by
    intro name hresult
    rcases hyields.failure () _ hresult with hfirst | hcall
    · obtain ⟨token, rest, hfilter, hfailure⟩ := filter_eq_cons_of_firstFails hlex hreads hfirst
      exact ⟨token, rest, hfilter, Failure.undefinedIdentifier.inj hfailure⟩
    · cases hcall
  split
  · next hnone =>
    intro name hresult
    obtain ⟨token, rest, hfilter, -⟩ := hname name hresult
    rw [hnone] at hfilter
    cases hfilter
  · next token rest hsome =>
    cases hresult : CommandLine.result groups (t.map Atom.ofToken) with
    | ok v =>
      have hnone := filter_eq_nil_of_allValued hlex hreads (hyields.value () v hresult)
      rw [hnone] at hsome
      cases hsome
    | error failure =>
      refine ⟨failure, rfl, ?_⟩
      rintro name rfl
      obtain ⟨first, others, hfilter, rfl⟩ := hname name hresult
      rw [hsome] at hfilter
      exact congrArg Token.lexeme (List.cons.inj hfilter).1.symm

/-- The index of a line that is not blank has the problem that the expression of the line cannot be
made, with the place and the message of that, or no problem. Then the evaluation of the expression
over registered groups does not fail at a name if all names are known to the groups. If some are
not, it fails, and at no other name than the first of these. -/
theorem index_agrees (groups : List String) (line : String)
    (hends : ∀ c ∈ line.toList, Text.isLineEnd c = false)
    (hblank : line.toList.all Text.isBlank = false) :
    let index := Index.ofText (Builtin.knownNames groups) line
    match (Expression.ofString line : Except ParseError (Expression Empty)) with
    | .error error => index.problems =
        [⟨0, error.found.offset, max error.found.lexeme.length 1, error.message⟩]
    | .ok expression =>
      let registered := { expression with table := (Builtin.register expression.table groups).2 }
      let result := outcome (registered.evaluate CommandLine.noHost ())
      index.problems = [] ∧
        match index.unbound with
        | [] => ∀ name, result ≠ .error (.undefinedIdentifier name)
        | first :: rest => (∀ use ∈ rest, first.column < use.column) ∧
            ∃ failure, result = .error failure ∧
              ∀ name, failure = .undefinedIdentifier name → name = first.name := by
  obtain ⟨ts, hlex, -⟩ := lex_eq_append line
  have hfilter : (lex line).filter (isUnbound (Builtin.knownNames groups)) =
      ts.filter (isUnbound (Builtin.knownNames groups)) := by
    rw [hlex]
    simp [isUnbound, Cursor.endToken]
  dsimp only
  rw [ofText_eq hends hblank, hfilter, lineProblems_eq]
  unfold Expression.ofString
  cases hparse : parse line with
  | error error => rfl
  | ok expr =>
    have hagrees := @result_agrees _ groups line expr ts hlex hparse
    have hascending := (lex_ascending hlex).filter (isUnbound (Builtin.knownNames groups))
    refine ⟨rfl, ?_⟩
    generalize ts.filter (isUnbound (Builtin.knownNames groups)) = unbound at hagrees hascending ⊢
    cases unbound with
    | nil => exact hagrees
    | cons token rest =>
      refine ⟨fun use huse => ?_, hagrees⟩
      obtain ⟨other, hother, rfl⟩ := List.mem_map.mp huse
      exact List.rel_of_pairwise_cons hascending hother

end Numerics

open Native

set_option maxRecDepth 4000 in
/-- All names of a line are known, and it has a value. Two names of another line are not known. The
first of them comes behind a number and two operators, which have values, so the evaluation fails at
it. -/
theorem index_agrees_value_and_unbound :
    let negated : Expr := .call (.leaf (.identifier "-")) [.leaf (.identifier "π")]
    let product : Expr := .call (.leaf (.identifier "*"))
      [.leaf (.number (Literal.toBinary64 "2".toList)), .leaf (.identifier "a")]
    let difference : Expr := .call (.leaf (.identifier "-")) [product, .leaf (.identifier "b")]
    ((Index.ofText (Builtin.knownNames ["math"]) "-π").unbound = [] ∧
      CommandLine.result ["math"] negated = .ok (.number Builtin.pi.negate) ∧
      ∀ name, CommandLine.result ["math"] negated ≠ .error (.undefinedIdentifier name)) ∧
    (Index.ofText (Builtin.knownNames ["math"]) "2*a-b").unbound = [⟨"a", 0, 2⟩, ⟨"b", 0, 4⟩] ∧
      ∃ failure, CommandLine.result ["math"] difference = .error failure ∧
        ∀ name, failure = .undefinedIdentifier name → name = "a" := by
  intro negated product difference
  refine ⟨?value, ?unbound⟩
  case value =>
    have hunbound : (Index.ofText (Builtin.knownNames ["math"]) "-π").unbound = [] := by rfl
    have hexpression : (Expression.ofString "-π" : Except ParseError (Expression Empty)) =
        .ok ⟨"-π", negated, Builtin.operatorTable⟩ := by rfl
    have hends : ∀ c ∈ "-π".toList, Text.isLineEnd c = false := by simp [Text.isLineEnd]
    have hagrees := index_agrees ["math"] "-π" hends (by rfl)
    dsimp only at hagrees
    rw [hexpression] at hagrees
    dsimp only at hagrees
    rw [hunbound] at hagrees
    exact ⟨hunbound, by rfl, hagrees.2⟩
  case unbound =>
    have hunbound : (Index.ofText (Builtin.knownNames ["math"]) "2*a-b").unbound =
        [⟨"a", 0, 2⟩, ⟨"b", 0, 4⟩] := by rfl
    have hexpression : (Expression.ofString "2*a-b" : Except ParseError (Expression Empty)) =
        .ok ⟨"2*a-b", difference, Builtin.operatorTable⟩ := by rfl
    have hends : ∀ c ∈ "2*a-b".toList, Text.isLineEnd c = false := by simp [Text.isLineEnd]
    have hagrees := index_agrees ["math"] "2*a-b" hends (by rfl)
    dsimp only at hagrees
    rw [hexpression] at hagrees
    dsimp only at hagrees
    rw [hunbound] at hagrees
    exact ⟨hunbound, hagrees.2.2⟩

end Document

end LineCalc
