import LineCalc.Proofs.Parsing.Renaming
import LineCalc.Proofs.Parsing.Spelling
import LineCalc.Proofs.Parsing.Transfer

/-!
# Expressions in brackets

A text that is parsed is read in the same way in parentheses, and as an argument of a call: what
then comes behind it is no longer the end of the file, but a closing parenthesis or a comma.

Nothing that is read from a place in the text on gets across this boundary, however the signs of the
text are judged. For every production leaves the depth of brackets as it was and meets no comma
outside of them (`Derives.depth_eq`). What is left of an expression from some place on may close
brackets that it has not opened, but opens none without closing it (`Inside`), and so a closing
parenthesis or a comma behind it is outside of all that it has opened (`Inside.not_across`). By
`Seam` the text is read as it was (`reads_closed`).

Where an expression has to end behind some tokens, it does not matter what comes then, so this says
how a text is read wherever it is put in (`Expresses`), and such texts make up groups and argument
lists of them (`parse_in_brackets`).
-/

namespace LineCalc

open LineCalc.Parser (Production)

/-! ## The depth of brackets -/

/-- The depth of brackets behind a token, with `n` open before it. Outside of all brackets nothing
is closed and no comma comes. -/
def depthAfter (n : Nat) (token : Token) : Option Nat :=
  match token.kind with
  | .leftParenthesis => some (n + 1)
  | .rightParenthesis => if n = 0 then none else some (n - 1)
  | .comma => if n = 0 then none else some n
  | .endOfFile => none
  | _ => some n

/-- The depth of brackets behind some tokens, with `n` open before them. -/
def depth (n : Nat) (ts : List Token) : Option Nat :=
  ts.foldlM depthAfter n

/-- Behind the first token, the others go on from its depth. -/
theorem depth_cons (n : Nat) (token : Token) (ts : List Token) :
    depth n (token :: ts) = (depthAfter n token).bind fun m => depth m ts :=
  List.foldlM_cons

/-- Behind some tokens, others go on from their depth. -/
theorem depth_append (n : Nat) (ts us : List Token) :
    depth n (ts ++ us) = (depth n ts).bind fun m => depth m us :=
  List.foldlM_append

/-- What is neither a bracket nor a comma leaves the depth as it is. -/
theorem depthAfter_operand {token : Token}
    (h : token.kind = .number ∨ token.kind = .identifier ∨ token.kind.isOperator) (n : Nat) :
    depthAfter n token = some n := by
  unfold depthAfter
  generalize token.kind = kind at h
  cases kind <;> simp_all [TokenKind.isOperator, TokenKind.isSign, TokenKind.joinsFactors]

/-- A parenthesis opens a bracket. -/
theorem depthAfter_open {opening : Token} (h : opening.kind = .leftParenthesis) (n : Nat) :
    depthAfter n opening = some (n + 1) := by
  rw [depthAfter, h]

/-- A parenthesis closes a bracket. -/
theorem depthAfter_close {closing : Token} (h : closing.kind = .rightParenthesis) (n : Nat) :
    depthAfter (n + 1) closing = some n := by
  rw [depthAfter, h]
  rfl

/-- Within brackets a comma leaves the depth as it is. -/
theorem depthAfter_comma {comma : Token} (h : comma.kind = .comma) (n : Nat) :
    depthAfter (n + 1) comma = some (n + 1) := by
  rw [depthAfter, h]
  rfl

/-- Outside of all brackets nothing closes an expression. -/
theorem depthAfter_closes {closing : Token} {w : List Token} (h : Closes (closing :: w)) :
    depthAfter 0 closing = none := by
  have hkind : closing.kind = .endOfFile ∨ closing.kind = .comma ∨
      closing.kind = .rightParenthesis := h
  unfold depthAfter
  rcases hkind with hkind | hkind | hkind <;> rw [hkind] <;> rfl

/-- Tokens in brackets leave the depth as it is if they do so within. -/
theorem depth_brackets {opening closing : Token} (ho : opening.kind = .leftParenthesis)
    (hc : closing.kind = .rightParenthesis) {n : Nat} {ts : List Token}
    (h : depth (n + 1) ts = some (n + 1)) : depth n (opening :: ts ++ [closing]) = some n := by
  rw [List.cons_append, depth_cons, depthAfter_open ho, Option.bind_some, depth_append, h,
    Option.bind_some, depth_cons, depthAfter_close hc]
  rfl

/-- An operator between operands leaves the depth as it is if they do. -/
theorem depth_join {operator : Token} (ho : operator.kind.isOperator) {n : Nat}
    {ts us : List Token} (h : depth n ts = some n) (hus : depth n us = some n) :
    depth n (ts ++ operator :: us) = some n := by
  rw [depth_append, h, Option.bind_some, depth_cons, depthAfter_operand (.inr (.inr ho)),
    Option.bind_some, hus]

mutual

/-- What a production derives leaves the depth as it is, and has no comma outside of brackets. -/
theorem Derives.depth_eq : ∀ {p : Production} {ts : List Token} {e : Expr}, Derives p ts e →
    ∀ n, depth n ts = some n
  | _, _, _, .number h, n => by
    rw [depth_cons, depthAfter_operand (.inl h)]
    rfl
  | _, _, _, .name h, n => by
    rw [depth_cons, depthAfter_operand (.inr h)]
    rfl
  | _, _, _, .group ho h hc, n => depth_brackets ho hc (h.depth_eq (n + 1))
  | _, _, _, .call h ho hus hc, n => by
    rw [List.append_assoc, depth_append, h.depth_eq n]
    exact depth_brackets ho hc (hus.depth_eq n)
  | _, _, _, .primary h, n => h.depth_eq n
  | _, _, _, .power h hcaret hus, n =>
    depth_join (isOperator_of_kind (.inr hcaret)) (h.depth_eq n) (hus.depth_eq n)
  | _, _, _, .factor h, n => h.depth_eq n
  | _, _, _, .signed hsign h, n => by
    rw [depth_cons, depthAfter_operand (.inr (.inr (isOperator_of_kind (.inl (.inl hsign)))))]
    exact h.depth_eq n
  | _, _, _, .term h, n => h.depth_eq n
  | _, _, _, .product h ho hus, n =>
    depth_join (isOperator_of_kind (.inl (.inr ho))) (h.depth_eq n) (hus.depth_eq n)
  | _, _, _, .expression h, n => h.depth_eq n
  | _, _, _, .sum h ho hus, n =>
    depth_join (isOperator_of_kind (.inl (.inl ho))) (h.depth_eq n) (hus.depth_eq n)
  | _, _, _, .complete h, n => h.depth_eq n

/-- The arguments of a call leave the depth within its brackets as it is. -/
theorem DerivesArguments.depth_eq : ∀ {ts : List Token} {es : List Expr}, DerivesArguments ts es →
    ∀ n, depth (n + 1) ts = some (n + 1)
  | _, _, .none, _ => rfl
  | _, _, .some h hus, n => by
    rw [depth_append, h.depth_eq (n + 1)]
    exact hus.depth_eq n

/-- The arguments after the first leave the depth within the brackets as it is. -/
theorem DerivesMore.depth_eq : ∀ {ts : List Token} {es : List Expr}, DerivesMore ts es →
    ∀ n, depth (n + 1) ts = some (n + 1)
  | _, _, .nil, _ => rfl
  | _, _, .cons hcomma h hus, n => by
    rw [List.cons_append, depth_cons, depthAfter_comma hcomma, Option.bind_some, depth_append,
      h.depth_eq (n + 1)]
    exact hus.depth_eq n

end

/-- With more brackets open before a token, more are open behind it. -/
theorem depthAfter_add {n m : Nat} {token : Token} (h : depthAfter n token = some m) (k : Nat) :
    depthAfter (n + k) token = some (m + k) := by
  unfold depthAfter at h ⊢
  generalize token.kind = kind at h
  cases kind <;> grind

/-- With more brackets open before some tokens, more are open behind them. -/
theorem depth_add {n m : Nat} {ts : List Token} (h : depth n ts = some m) (k : Nat) :
    depth (n + k) ts = some (m + k) := by
  induction ts generalizing n with
  | nil =>
    obtain rfl : n = m := Option.some.inj h
    rfl
  | cons token ts ih =>
    rw [depth_cons] at h
    obtain ⟨n', hstep, hrest⟩ := Option.bind_eq_some_iff.mp h
    rw [depth_cons, depthAfter_add hstep k]
    exact ih hrest

/-! ## Parts of an expression -/

/-- Some tokens close all brackets that they open, and however many are open before them. -/
def Inside (w : List Token) : Prop :=
  ∃ n, depth n w = some 0

namespace Inside

/-- An expression is inside itself. -/
theorem of_reads {p : Production} {ts after : List Token} {t : SyntaxTree}
    (h : Reads p ts after t) : Inside ts :=
  ⟨0, h.derives.depth_eq 0⟩

/-- The end of tokens that are inside an expression is inside it as well. -/
theorem right {us w : List Token} (h : Inside (us ++ w)) : Inside w := by
  obtain ⟨n, hn⟩ := h
  rw [depth_append] at hn
  obtain ⟨m, -, hm⟩ := Option.bind_eq_some_iff.mp hn
  exact ⟨m, hm⟩

/-- What leaves the depth as it is does not get out of an expression, across what closes it. -/
theorem not_across {w us x rest : List Token} (h : Inside w) (hx : Closes x)
    (hdepth : depth 0 us = some 0) (hus : w ++ x = us ++ rest) :
    ∃ v, w = us ++ v ∧ rest = v ++ x := by
  rcases List.append_eq_append_iff.mp hus with ⟨as, rfl, has⟩ | ⟨as, hw, hrest⟩
  · cases as with
    | nil => exact ⟨[], by simp, has.symm⟩
    | cons closing as =>
      obtain rfl : x = closing :: (as ++ rest) := has
      rw [depth_append] at hdepth
      obtain ⟨m, hm, hclosing⟩ := Option.bind_eq_some_iff.mp hdepth
      -- No bracket is open before what closes, since none is with more of them open at the start.
      obtain rfl : m = 0 := by
        obtain ⟨n, hn⟩ := h
        have hmore := depth_add hm n
        rw [Nat.zero_add, hn, Option.some.injEq] at hmore
        omega
      rw [depth_cons, depthAfter_closes hx] at hclosing
      cases hclosing
  · exact ⟨as, hw, hrest⟩

end Inside

/-- No operator comes where an expression has to be at its end. -/
theorem not_operator_of_closes {w : List Token} (h : Closes w) :
    ¬((nextKind w).joinsFactors ∨ nextKind w = .caret) := by
  obtain ⟨hcontinues, hjoins, -⟩ := Words.not_continues_of_closes h
  exact fun hnext => hnext.elim hjoins fun hcaret => hcontinues (.inr hcaret)

/-- Before what closes it, the parts of an expression are read as they were. -/
theorem Inside.seam {x : List Token} (hx : Closes x) : Seam x Inside where
  continues_iff v := by
    cases v with
    | nil =>
      have hend : Closes [] := .inl rfl
      exact iff_of_false (Words.not_continues_of_closes hx).1 (Words.not_continues_of_closes hend).1
    | cons token v => exact Iff.rfl
  stays h hread hus := h.not_across hx (hread.derives.depth_eq 0) hus
  operand_iff := by
    intro us w sign h hsign hends
    have hw : Inside w := by
      rw [List.append_cons] at h
      exact h.right
    refine (hends w (Nat.le_refl _) hw).operand_iff ?_ fun v _ hv => ?_
    · cases w with
      | nil => exact iff_of_false (not_operator_of_closes hx) (not_operator_of_closes (.inl rfl))
      | cons token w => exact Iff.rfl
    · obtain ⟨us', _, rfl, -⟩ := (settled_skips w v).mp hv
      exact hends v (by simp) hw.right

/-- An expression is read before what closes it as it is read at the end of a text. -/
theorem reads_closed {ts x : List Token} {t : SyntaxTree} (h : Reads .expression ts [] t)
    (hx : Closes x) : Reads .expression ts x t :=
  ((Inside.seam hx).reads_iff (Inside.of_reads h) t).mpr h

/-! ## Texts that are put into others -/

/-- A name is called with the arguments in the parentheses behind it. -/
theorem Expresses.call {es : List Expr} {us : List Token} {name first second : Token}
    (hname : name.kind = .identifier) (hfirst : first.kind = .leftParenthesis)
    (hsecond : second.kind = .rightParenthesis) (h : ExpressesArguments es us) :
    Expresses (.call (.leaf (.identifier name.lexeme)) es) (name :: first :: us ++ [second]) := by
  intro after _
  obtain ⟨trees, htrees, hmap⟩ := h (second :: after) hsecond
  have hatom : Reads .atom [name] (first :: us ++ second :: after) (.leaf name) :=
    .leaf (.inr (.inl hname))
  have hcall : Reads .primary (name :: first :: us ++ [second]) after (.call (.leaf name) trees) :=
    .primary (.call hatom hfirst htrees hsecond)
  have hfactor := reads_factor_of_not_sign (by simp [hname, TokenKind.isSign]) hcall
  refine ⟨_, .expression (.term hfactor), ?_⟩
  rw [Tree.map, Tree.map, hmap, Atom.ofToken_of_ne (by simp [hname])]

/-- The first text of a list, and then each of the others behind a separator. -/
theorem intercalate_cons_eq_flatMap {α : Type} (separator x : List α) (xs : List (List α)) :
    separator.intercalate (x :: xs) = x ++ xs.flatMap (separator ++ ·) := by
  induction xs generalizing x with
  | nil => simp
  | cons y ys ih => rw [List.intercalate_cons_cons, ih, List.flatMap_cons, List.append_assoc,
      List.append_assoc]

/-- Arguments behind commas start with a stop, if there are any. -/
theorem stops_more {post : List Char} (items : List (String × Expr)) (hpost : Stops post) :
    Stops ((items.flatMap fun item => [',', ' '] ++ item.1.toList) ++ post) := by
  cases items with
  | nil => exact hpost
  | cons item items => exact fun c hc => .inl (Option.some.inj hc).symm

namespace Lexes

variable {e : Expr} {post : List Char}

/-- A text that is parsed is read as its expression before a stop as well. -/
theorem of_parse {s : String} (hparse : parse s = .ok e) (hpost : Stops post) :
    Lexes (Expresses e) s.toList post := by
  obtain ⟨ts, hlex, hkinds⟩ := lex_eq_append s
  obtain ⟨t, ht, hmap⟩ := (parse_eq_ok_iff hlex hkinds e).mp hparse
  refine (Lexes.of_lex hlex hpost).mono fun us hus after hafter => ?_
  obtain ⟨u, hu, hsame⟩ := Words.reads_of_unplaced hus hkinds ht
  exact ⟨u, reads_closed hu hafter, hsame.trans hmap⟩

/-- A text that is read as an expression is parsed to it. -/
theorem parse_eq {s : String} (h : Lexes (Expresses e) s.toList []) : parse s = .ok e := by
  obtain ⟨ts, hlex, hts⟩ := h.lex_eq
  exact (parse_eq_ok_iff hlex (kind_ne_of_lex_eq hlex) e).mpr (hts [] (.inl rfl))

/-- Texts that are parsed, each behind a comma and a blank, are read as arguments. -/
theorem more {items : List (String × Expr)} (hitems : ∀ item ∈ items, parse item.1 = .ok item.2)
    (hpost : Stops post) :
    Lexes (ExpressesMore (items.map Prod.snd))
      (items.flatMap fun item => [',', ' '] ++ item.1.toList) post := by
  induction items with
  | nil =>
    refine Lexes.nil.mono ?_
    rintro ts rfl
    exact .nil
  | cons item items ih =>
    have hrest := ih fun other hother => hitems other (List.mem_cons_of_mem item hother)
    have hstops := stops_more items hpost
    have hfirst := of_parse (hitems item List.mem_cons_self) hstops
    have hcomma : TokenKind.ofSymbol? ',' = some .comma := rfl
    have hblank : Text.isBlank ' ' = true := by decide
    have hlist : ((item :: items).flatMap fun item => [',', ' '] ++ item.1.toList) =
        [','] ++ ([' '] ++ (item.1.toList ++
          items.flatMap fun item => [',', ' '] ++ item.1.toList)) := by
      simp
    rw [hlist]
    refine ((Lexes.symbol hcomma).append ((Lexes.blank hblank).append
      (hfirst.append hrest))).mono ?_
    rintro ts ⟨_, _, rfl, ⟨comma, rfl, hkind, -⟩, _, _, rfl, rfl, us, vs, rfl, hus, hvs⟩
    have hmore := Expresses.more hkind hus hvs
    exact hmore

/-- Texts that are parsed are read as the arguments of a call, with a comma and a blank between each
and the next. -/
theorem arguments {items : List (String × Expr)}
    (hitems : ∀ item ∈ items, parse item.1 = .ok item.2) (hpost : Stops post) :
    Lexes (ExpressesArguments (items.map Prod.snd))
      (", ".intercalate (items.map Prod.fst)).toList post := by
  rw [String.toList_intercalate]
  cases items with
  | nil =>
    refine Lexes.nil.mono ?_
    rintro ts rfl
    exact .none
  | cons item items =>
    have hmore := more (fun other hother => hitems other (List.mem_cons_of_mem item hother)) hpost
    have hstops := stops_more items hpost
    have hfirst := of_parse (hitems item List.mem_cons_self) hstops
    have hlist : (", ".toList).intercalate (((item :: items).map Prod.fst).map String.toList) =
        item.1.toList ++ items.flatMap fun item => [',', ' '] ++ item.1.toList := by
      simp only [List.map_cons, intercalate_cons_eq_flatMap, List.flatMap_map]
      rfl
    rw [hlist]
    refine (hfirst.append hmore).mono ?_
    rintro ts ⟨us, vs, rfl, hus, hvs⟩
    exact hus.arguments hvs

end Lexes

/-- A text that is parsed is parsed to the same expression in parentheses, and such texts are parsed
to the arguments of a call if they stand in parentheses behind a name. -/
theorem parse_in_brackets :
    (∀ s e, parse s = .ok e → parse ("(" ++ s ++ ")") = .ok e) ∧
      ∀ f, lex f = [⟨.identifier, f, 0⟩, Cursor.endToken f.toList] →
        ∀ items : List (String × Expr), (∀ item ∈ items, parse item.1 = .ok item.2) →
          parse (f ++ "(" ++ ", ".intercalate (items.map Prod.fst) ++ ")") =
            .ok (.call (.leaf (.identifier f)) (items.map Prod.snd)) := by
  constructor
  · intro s e hparse
    have hlist : ("(" ++ s ++ ")").toList = '(' :: s.toList ++ [')'] := by simp
    have hgroup := Lexes.group (fun _ hpost => Lexes.of_parse hparse hpost) []
    refine Lexes.parse_eq ?_
    rw [hlist]
    refine hgroup.mono ?_
    rintro ts ⟨first, us, second, rfl, hfirst, hsecond, hus⟩
    exact hus.group hfirst hsecond
  · intro f hf items hitems
    have hlist : (f ++ "(" ++ ", ".intercalate (items.map Prod.fst) ++ ")").toList =
        f.toList ++ ('(' :: (", ".intercalate (items.map Prod.fst)).toList ++ [')']) := by simp
    have hstops : Stops
        ('(' :: (", ".intercalate (items.map Prod.fst)).toList ++ [')'] ++ []) :=
      fun c hc => .inr (.inl (.inl (Option.some.inj hc).symm))
    have hname := Lexes.lexeme (by simp) hf hstops
    have hgroup := Lexes.group (fun _ hpost => Lexes.arguments hitems hpost) []
    refine Lexes.parse_eq ?_
    rw [hlist]
    refine (hname.append hgroup).mono ?_
    rintro ts ⟨_, _, rfl, ⟨name, rfl, hkind, rfl⟩, first, us, second, rfl, hfirst, hsecond, hus⟩
    exact Expresses.call hkind hfirst hsecond hus

set_option maxRecDepth 4000 in
/-- A sign that is an operand, and one that is an argument by itself. At the end of a text nothing
comes behind them, and here it is a parenthesis or a comma. -/
theorem parse_signs_in_brackets :
    let minus : Expr := .leaf (.identifier "-")
    let product : Expr := .call (.leaf (.identifier "*"))
      [minus, .leaf (.number (Literal.toBinary64 "3".toList))]
    parse "(- * 3)" = .ok product ∧
      parse "f(- * 3, -)" = .ok (.call (.leaf (.identifier "f")) [product, minus]) := by
  intro minus product
  have hproduct : parse "- * 3" = .ok product := by rfl
  have hminus : parse "-" = .ok minus := by rfl
  have hname : lex "f" = [⟨.identifier, "f", 0⟩, Cursor.endToken "f".toList] := by rfl
  have hitems : ∀ item ∈ [("- * 3", product), ("-", minus)], parse item.1 = .ok item.2 := by
    intro item hitem
    have hcases : item = ("- * 3", product) ∨ item = ("-", minus) := by simpa using hitem
    rcases hcases with rfl | rfl
    · exact hproduct
    · exact hminus
  exact ⟨parse_in_brackets.1 "- * 3" product hproduct, parse_in_brackets.2 "f" hname _ hitems⟩

end LineCalc
