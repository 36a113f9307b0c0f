import LineCalc.Parser

/-!
# The grammar

`Derives` is the grammar of expressions as a relation: which tokens a production derives, and to
which tree. Operators between factors and between terms group from the left, the right operand of
a power is a factor, each call wraps what stands before it, and a sign before a factor is a call
with one argument. Every operator is also an atom, so the grammar is ambiguous.

`Reads` is the part of it that the parser follows. It has the same productions and one more
condition, on signs: a sign that starts a factor is an operand exactly when `Operand` says so of
the tokens behind it. These are an operator other than a sign and then what makes two factors, or
no factor at all. Because this depends on the tokens behind the factor, `Reads` keeps them.
-/

namespace LineCalc

open LineCalc.Parser (Production)

/-! ## What the productions derive -/

mutual

/-- The tokens that a production derives, with their tree. -/
inductive Derives : Production → List Token → Expr → Prop
  | number {token : Token} (h : token.kind = .number) :
    Derives .atom [token] (.leaf (.number (Literal.toBinary64 token.lexeme.toList)))
  | name {token : Token} (h : token.kind = .identifier ∨ token.kind.isOperator) :
    Derives .atom [token] (.leaf (.identifier token.lexeme))
  | group {opening closing : Token} {ts : List Token} {e : Expr}
    (ho : opening.kind = .leftParenthesis) (h : Derives .expression ts e)
    (hc : closing.kind = .rightParenthesis) :
    Derives .atom (opening :: ts ++ [closing]) e
  | call {opening closing : Token} {ts us : List Token} {callee : Expr} {arguments : List Expr}
    (h : Derives .atom ts callee) (ho : opening.kind = .leftParenthesis)
    (hus : DerivesArguments us arguments) (hc : closing.kind = .rightParenthesis) :
    Derives .atom (ts ++ opening :: us ++ [closing]) (.call callee arguments)
  | primary {ts : List Token} {e : Expr} (h : Derives .atom ts e) : Derives .primary ts e
  | power {caret : Token} {ts us : List Token} {base exponent : Expr}
    (h : Derives .atom ts base) (hcaret : caret.kind = .caret)
    (hus : Derives .factor us exponent) :
    Derives .primary (ts ++ caret :: us) (.call (.leaf (.identifier caret.lexeme)) [base, exponent])
  | factor {ts : List Token} {e : Expr} (h : Derives .primary ts e) : Derives .factor ts e
  | signed {sign : Token} {ts : List Token} {e : Expr} (hsign : sign.kind.isSign)
    (h : Derives .factor ts e) :
    Derives .factor (sign :: ts) (.call (.leaf (.identifier sign.lexeme)) [e])
  | term {ts : List Token} {e : Expr} (h : Derives .factor ts e) : Derives .term ts e
  | product {operator : Token} {ts us : List Token} {left right : Expr}
    (h : Derives .term ts left) (ho : operator.kind.joinsFactors)
    (hus : Derives .factor us right) :
    Derives .term (ts ++ operator :: us)
      (.call (.leaf (.identifier operator.lexeme)) [left, right])
  | expression {ts : List Token} {e : Expr} (h : Derives .term ts e) : Derives .expression ts e
  | sum {operator : Token} {ts us : List Token} {left right : Expr}
    (h : Derives .expression ts left) (ho : operator.kind.isSign)
    (hus : Derives .term us right) :
    Derives .expression (ts ++ operator :: us)
      (.call (.leaf (.identifier operator.lexeme)) [left, right])
  | complete {ts : List Token} {e : Expr} (h : Derives .expression ts e) : Derives .complete ts e

/-- The tokens of the arguments of a call, with the trees of these. -/
inductive DerivesArguments : List Token → List Expr → Prop
  | none : DerivesArguments [] []
  | some {ts us : List Token} {e : Expr} {es : List Expr} (h : Derives .expression ts e)
    (hus : DerivesMore us es) : DerivesArguments (ts ++ us) (e :: es)

/-- The tokens of the arguments after the first, each with the comma before it. -/
inductive DerivesMore : List Token → List Expr → Prop
  | nil : DerivesMore [] []
  | cons {comma : Token} {ts us : List Token} {e : Expr} {es : List Expr}
    (hcomma : comma.kind = .comma) (h : Derives .expression ts e) (hus : DerivesMore us es) :
    DerivesMore (comma :: ts ++ us) (e :: es)

end

/-! ## What the parser reads -/

/-- The kind of the next token of a list. -/
def nextKind : List Token → TokenKind
  | [] => .endOfFile
  | token :: _ => token.kind

/-- Whether what stands before these tokens goes on with them: with a call or with a power. -/
def Continues (w : List Token) : Prop :=
  nextKind w = .leftParenthesis ∨ nextKind w = .caret

/-- Whether an expression has to be at its end before these tokens. -/
def Closes (w : List Token) : Prop :=
  nextKind w = .endOfFile ∨ nextKind w = .comma ∨ nextKind w = .rightParenthesis

/-- Whether a sign before these tokens is an operand, where `skips v v'` says that the tokens `v`
start with a factor that is followed by `v'`: an operator comes next and two factors can be read
one after the other, or no factor can be read. -/
def Operand (skips : List Token → List Token → Prop) (w : List Token) : Prop :=
  (((nextKind w).joinsFactors ∨ nextKind w = .caret) ∧ ∃ v v', skips w v ∧ skips v v') ∨
    ¬∃ v, skips w v

mutual

/-- The tokens that a production derives before other tokens, with their tree, where a sign that
starts a factor is an operand exactly if `Operand` says so. -/
inductive ReadsWith (skips : List Token → List Token → Prop) :
    Production → List Token → List Token → SyntaxTree → Prop
  | leaf {token : Token} {after : List Token}
    (h : token.kind = .number ∨ token.kind = .identifier ∨ token.kind.isOperator) :
    ReadsWith skips .atom [token] after (.leaf token)
  | group {opening closing : Token} {ts after : List Token} {t : SyntaxTree}
    (ho : opening.kind = .leftParenthesis)
    (h : ReadsWith skips .expression ts (closing :: after) t)
    (hc : closing.kind = .rightParenthesis) :
    ReadsWith skips .atom (opening :: ts ++ [closing]) after t
  | call {opening closing : Token} {ts us after : List Token} {callee : SyntaxTree}
    {arguments : List SyntaxTree}
    (h : ReadsWith skips .atom ts (opening :: us ++ closing :: after) callee)
    (ho : opening.kind = .leftParenthesis)
    (hus : ReadsArguments skips us (closing :: after) arguments)
    (hc : closing.kind = .rightParenthesis) :
    ReadsWith skips .atom (ts ++ opening :: us ++ [closing]) after (.call callee arguments)
  | primary {ts after : List Token} {t : SyntaxTree} (h : ReadsWith skips .atom ts after t) :
    ReadsWith skips .primary ts after t
  | power {caret : Token} {ts us after : List Token} {base exponent : SyntaxTree}
    (h : ReadsWith skips .atom ts (caret :: us ++ after) base) (hcaret : caret.kind = .caret)
    (hus : ReadsWith skips .factor us after exponent) :
    ReadsWith skips .primary (ts ++ caret :: us) after (.call (.leaf caret) [base, exponent])
  | factor {ts after : List Token} {t : SyntaxTree} (h : ReadsWith skips .primary ts after t)
    (hsign : ∀ sign us, ts = sign :: us → sign.kind.isSign → Operand skips (us ++ after)) :
    ReadsWith skips .factor ts after t
  | signed {sign : Token} {ts after : List Token} {t : SyntaxTree} (hsign : sign.kind.isSign)
    (h : ReadsWith skips .factor ts after t) (hunary : ¬Operand skips (ts ++ after)) :
    ReadsWith skips .factor (sign :: ts) after (.call (.leaf sign) [t])
  | term {ts after : List Token} {t : SyntaxTree} (h : ReadsWith skips .factor ts after t) :
    ReadsWith skips .term ts after t
  | product {operator : Token} {ts us after : List Token} {left right : SyntaxTree}
    (h : ReadsWith skips .term ts (operator :: us ++ after) left)
    (ho : operator.kind.joinsFactors) (hus : ReadsWith skips .factor us after right) :
    ReadsWith skips .term (ts ++ operator :: us) after (.call (.leaf operator) [left, right])
  | expression {ts after : List Token} {t : SyntaxTree} (h : ReadsWith skips .term ts after t) :
    ReadsWith skips .expression ts after t
  | sum {operator : Token} {ts us after : List Token} {left right : SyntaxTree}
    (h : ReadsWith skips .expression ts (operator :: us ++ after) left)
    (ho : operator.kind.isSign) (hus : ReadsWith skips .term us after right) :
    ReadsWith skips .expression (ts ++ operator :: us) after (.call (.leaf operator) [left, right])
  | complete {ts : List Token} {t : SyntaxTree} (h : ReadsWith skips .expression ts [] t) :
    ReadsWith skips .complete ts [] t

/-- The arguments of a call, before other tokens. -/
inductive ReadsArguments (skips : List Token → List Token → Prop) :
    List Token → List Token → List SyntaxTree → Prop
  | none {after : List Token} : ReadsArguments skips [] after []
  | some {ts us after : List Token} {t : SyntaxTree} {trees : List SyntaxTree}
    (h : ReadsWith skips .expression ts (us ++ after) t)
    (hus : ReadsMore skips us after trees) : ReadsArguments skips (ts ++ us) after (t :: trees)

/-- The arguments after the first, each with the comma before it, before other tokens. -/
inductive ReadsMore (skips : List Token → List Token → Prop) :
    List Token → List Token → List SyntaxTree → Prop
  | nil {after : List Token} : ReadsMore skips [] after []
  | cons {comma : Token} {ts us after : List Token} {t : SyntaxTree} {trees : List SyntaxTree}
    (hcomma : comma.kind = .comma) (h : ReadsWith skips .expression ts (us ++ after) t)
    (hus : ReadsMore skips us after trees) : ReadsMore skips (comma :: ts ++ us) after (t :: trees)

end

/-- The tokens start with a factor, which is followed by `rest` and does not go on with it. In the
condition on signs fewer tokens are left, so that this is well-founded. -/
def Skips (w rest : List Token) : Prop :=
  ∃ ts t, w = ts ++ rest ∧ ¬Continues rest ∧
    ReadsWith (fun v v' => ∃ _ : v.length < w.length, Skips v v') .factor ts rest t
termination_by w.length

/-- The tokens that a production derives before other tokens, as the parser reads them. -/
abbrev Reads : Production → List Token → List Token → SyntaxTree → Prop :=
  ReadsWith Skips

/-- A production derives at least one token. -/
theorem ReadsWith.ne_nil {skips : List Token → List Token → Prop} :
    ∀ {p : Production} {ts after : List Token} {t : SyntaxTree}, ReadsWith skips p ts after t →
      ts ≠ []
  | _, _, _, _, .leaf _ => by simp
  | _, _, _, _, .group _ _ _ => by simp
  | _, _, _, _, .call _ _ _ _ => by simp
  | _, _, _, _, .primary h => h.ne_nil
  | _, _, _, _, .power _ _ _ => by simp
  | _, _, _, _, .factor h _ => h.ne_nil
  | _, _, _, _, .signed _ _ _ => by simp
  | _, _, _, _, .term h => h.ne_nil
  | _, _, _, _, .product _ _ _ => by simp
  | _, _, _, _, .expression h => h.ne_nil
  | _, _, _, _, .sum _ _ _ => by simp
  | _, _, _, _, .complete h => h.ne_nil

/-- After an argument comes a comma, or what comes after all of them. -/
theorem ReadsMore.closes {skips : List Token → List Token → Prop}
    {ts after : List Token} {trees : List SyntaxTree} (h : ReadsMore skips ts after trees)
    (hafter : nextKind after = .rightParenthesis) : Closes (ts ++ after) := by
  cases h with
  | nil => exact .inr (.inr hafter)
  | cons hcomma _ _ => exact .inr (.inl hcomma)

/-! ## Signs look only at what is left -/

/-- On fewer tokens than there are, two notions of where factors end are the same. The first of
them never ends a factor before it starts. -/
structure AgreeBelow (n : Nat) (skips skips' : List Token → List Token → Prop) : Prop where
  forward : ∀ v v', skips v v' → v'.length ≤ v.length
  iff : ∀ v v', v.length < n → (skips v v' ↔ skips' v v')

/-- Notions that agree on fewer tokens agree on fewer still. -/
theorem AgreeBelow.mono {n m : Nat} {skips skips' : List Token → List Token → Prop}
    (h : AgreeBelow n skips skips') (hm : m ≤ n) : AgreeBelow m skips skips' :=
  ⟨h.forward, fun v v' hv => h.iff v v' (by omega)⟩

/-- The test for operands asks only about the tokens that it is given, and fewer. -/
theorem AgreeBelow.operand_iff {n : Nat} {skips skips' : List Token → List Token → Prop}
    (h : AgreeBelow n skips skips') {w : List Token} (hw : w.length < n) :
    Operand skips w ↔ Operand skips' w := by
  have htwo : (∃ v v', skips w v ∧ skips v v') ↔ ∃ v v', skips' w v ∧ skips' v v' := by
    constructor
    · -- The second factor starts where the first ends, which is not before `w`.
      rintro ⟨v, v', hv, hv'⟩
      have hle := h.forward w v hv
      exact ⟨v, v', (h.iff w v hw).mp hv, (h.iff v v' (by omega)).mp hv'⟩
    · rintro ⟨v, v', hv, hv'⟩
      have hv := (h.iff w v hw).mpr hv
      have hle := h.forward w v hv
      exact ⟨v, v', hv, (h.iff v v' (by omega)).mpr hv'⟩
  have hone : (∃ v, skips w v) ↔ ∃ v, skips' w v := exists_congr fun v => h.iff w v hw
  unfold Operand
  rw [htwo, hone]

mutual

/-- What a production derives depends on where factors end only behind signs. -/
theorem ReadsWith.congr {skips skips' : List Token → List Token → Prop} :
    ∀ {p : Production} {ts after : List Token} {t : SyntaxTree}, ReadsWith skips p ts after t →
      AgreeBelow (ts ++ after).length skips skips' → ReadsWith skips' p ts after t
  | _, _, _, _, .leaf h, _ => .leaf h
  | _, _, _, _, .group ho h hc, hs => .group ho (h.congr (hs.mono (by simp))) hc
  | _, _, _, _, .call h ho hus hc, hs =>
    .call (h.congr (hs.mono (by simp))) ho (hus.congr (hs.mono (by simp; omega))) hc
  | _, _, _, _, .primary h, hs => .primary (h.congr hs)
  | _, _, _, _, .power h hcaret hus, hs =>
    .power (h.congr (hs.mono (by simp))) hcaret (hus.congr (hs.mono (by simp; omega)))
  | _, _, _, _, .factor h hsign, hs => by
    -- A sign is asked about what is behind it, which is one token less.
    refine .factor (h.congr hs) fun sign us hts hkind => ?_
    subst hts
    exact (hs.operand_iff (by simp)).mp (hsign sign us rfl hkind)
  | _, _, _, _, .signed hsign h hunary, hs =>
    .signed hsign (h.congr (hs.mono (by simp)))
      (mt (hs.operand_iff (by simp)).mpr hunary)
  | _, _, _, _, .term h, hs => .term (h.congr hs)
  | _, _, _, _, .product h ho hus, hs =>
    .product (h.congr (hs.mono (by simp))) ho (hus.congr (hs.mono (by simp; omega)))
  | _, _, _, _, .expression h, hs => .expression (h.congr hs)
  | _, _, _, _, .sum h ho hus, hs =>
    .sum (h.congr (hs.mono (by simp))) ho (hus.congr (hs.mono (by simp; omega)))
  | _, _, _, _, .complete h, hs => .complete (h.congr hs)

/-- The same of the arguments of a call. -/
theorem ReadsArguments.congr {skips skips' : List Token → List Token → Prop} :
    ∀ {ts after : List Token} {trees : List SyntaxTree}, ReadsArguments skips ts after trees →
      AgreeBelow (ts ++ after).length skips skips' → ReadsArguments skips' ts after trees
  | _, _, _, .none, _ => .none
  | _, _, _, .some h hus, hs =>
    .some (h.congr (hs.mono (by simp))) (hus.congr (hs.mono (by simp)))

/-- The same of the arguments behind the first one. -/
theorem ReadsMore.congr {skips skips' : List Token → List Token → Prop} :
    ∀ {ts after : List Token} {trees : List SyntaxTree}, ReadsMore skips ts after trees →
      AgreeBelow (ts ++ after).length skips skips' → ReadsMore skips' ts after trees
  | _, _, _, .nil, _ => .nil
  | _, _, _, .cons hcomma h hus, hs =>
    .cons hcomma (h.congr (hs.mono (by simp))) (hus.congr (hs.mono (by simp; omega)))

end

/-- A notion of where factors end that follows from what it lets a factor derive. -/
def Settled (skips : List Token → List Token → Prop) : Prop :=
  ∀ w rest, skips w rest ↔
    ∃ ts t, w = ts ++ rest ∧ ¬Continues rest ∧ ReadsWith skips .factor ts rest t

/-- A settled notion does not end a factor before it starts. -/
theorem Settled.forward {skips : List Token → List Token → Prop} (h : Settled skips)
    (v v' : List Token) (hv : skips v v') : v'.length ≤ v.length := by
  obtain ⟨ts, _, rfl, -⟩ := (h v v').mp hv
  simp

/-- There is only one settled notion. -/
theorem Settled.unique {skips skips' : List Token → List Token → Prop} (h : Settled skips)
    (h' : Settled skips') : skips = skips' := by
  have hagree : ∀ n, AgreeBelow n skips skips' := by
    intro n
    induction n with
    | zero => exact ⟨h.forward, fun v _ hv => absurd hv (Nat.not_lt_zero _)⟩
    | succ n ih =>
      -- Both are what they let a factor derive, and of up to `n` tokens its signs see fewer.
      refine ⟨h.forward, fun v v' hv => ?_⟩
      rw [h v v', h' v v']
      constructor
      · rintro ⟨ts, t, rfl, hc, ht⟩
        exact ⟨ts, t, rfl, hc, ht.congr (ih.mono (by omega))⟩
      · rintro ⟨ts, t, rfl, hc, ht⟩
        have ih' : AgreeBelow n skips' skips := ⟨h'.forward, fun v v' hv => (ih.iff v v' hv).symm⟩
        exact ⟨ts, t, rfl, hc, ht.congr (ih'.mono (by omega))⟩
  funext v v'
  exact propext ((hagree (v.length + 1)).iff v v' (by omega))

/-- `Skips` is settled. -/
theorem settled_skips : Settled Skips := by
  have hforward : ∀ v v', Skips v v' → v'.length ≤ v.length := by
    intro v v' hv
    rw [Skips] at hv
    obtain ⟨ts, _, rfl, -⟩ := hv
    simp
  intro w rest
  -- The bound in the definition of `Skips` holds wherever a sign asks.
  have hguard : AgreeBelow w.length Skips fun v v' => ∃ _ : v.length < w.length, Skips v v' :=
    ⟨hforward, fun v v' hv => ⟨fun h => ⟨hv, h⟩, fun h => h.2⟩⟩
  have hguard' : AgreeBelow w.length (fun v v' => ∃ _ : v.length < w.length, Skips v v') Skips :=
    ⟨fun v v' h => hforward v v' h.2, fun v v' hv => (hguard.iff v v' hv).symm⟩
  rw [Skips]
  constructor
  · rintro ⟨ts, t, rfl, hc, ht⟩
    exact ⟨ts, t, rfl, hc, ht.congr hguard'⟩
  · rintro ⟨ts, t, rfl, hc, ht⟩
    exact ⟨ts, t, rfl, hc, ht.congr hguard⟩

end LineCalc
