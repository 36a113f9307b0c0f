import LineCalc.Parser

/-!
# Parsers on related sources

The rules of the parser see a source of tokens only through `peek` and `advance`. So on two sources
that give the same tokens they give the same results, however the sources store their places.
`Simulates` says this of two computations: from places that are related they return the same value
or the same error, at places that are related again. It is kept by every way in which the rules
are put together, and `rules_simulates` draws the conclusion for all of them.

The relation before a computation may differ from the one after it. With relations that bound how
much of the source is left, the same lemmas say that levels beyond those needed change nothing.
-/

namespace LineCalc.Parser

variable {σ τ α β : Type}

/-! ## Running a computation -/

/-- A computation runs before the one that is bound to its value. -/
theorem bind_apply (p : Parser σ α) (f : α → Parser σ β) (s : σ) :
    (p >>= f) s = match p s with
      | .ok a s' => f a s'
      | .error e s' => .error e s' := by
  show EStateM.bind p f s = _
  unfold EStateM.bind
  cases p s <;> rfl

/-- A value that is not used is bound to nothing. -/
theorem discard_bind (p : Parser σ α) (q : Unit → Parser σ β) :
    (discard p >>= q) = p >>= fun _ => q () := by
  funext s
  have h : (discard p : Parser σ Unit) s = match p s with
      | .ok _ s' => .ok () s'
      | .error e s' => .error e s' := by
    show EStateM.map (Function.const α ()) p s = _
    unfold EStateM.map
    cases p s <;> rfl
  rw [bind_apply, bind_apply, h]
  cases p s <;> rfl

/-- A computation that succeeds does so in both of its parts. -/
theorem bind_eq_ok {p : Parser σ α} {f : α → Parser σ β} {s s'' : σ} {b : β} :
    (p >>= f) s = .ok b s'' ↔ ∃ a s', p s = .ok a s' ∧ f a s' = .ok b s'' := by
  rw [bind_apply]
  cases p s with
  | ok a s' => simp [and_assoc]
  | error e s' => simp

/-- A computation whose value is dropped succeeds where it would have succeeded. -/
theorem discard_eq_ok {p : Parser σ α} {s s' : σ} {u : Unit} :
    (discard p : Parser σ Unit) s = .ok u s' ↔ ∃ a, p s = .ok a s' := by
  show EStateM.map (Function.const α ()) p s = .ok u s' ↔ _
  unfold EStateM.map
  cases p s with
  | ok a s' => simp
  | error e s' => simp

/-- What follows a success runs from where that ended. -/
theorem bind_of_ok {p : Parser σ α} {f : α → Parser σ β} {s s' : σ} {a : α} (h : p s = .ok a s') :
    (p >>= f) s = f a s' := by
  rw [bind_apply, h]

/-- An attempt that succeeds. -/
theorem attempt?_of_ok {p : Parser σ α} {s s' : σ} {a : α} (h : p s = .ok a s') :
    attempt? p s = .ok (some a) s' := by
  unfold attempt?
  rw [h]

/-- An attempt that fails goes back to where it began. -/
theorem attempt?_of_error {p : Parser σ α} {s s' : σ} {e : ParseError} (h : p s = .error e s') :
    attempt? p s = .ok none s := by
  unfold attempt?
  rw [h]

/-! ## Results that agree -/

/-- The same value or the same error, at places that are related. -/
inductive Agrees (R : σ → τ → Prop) :
    EStateM.Result ParseError σ α → EStateM.Result ParseError τ α → Prop
  | ok (a : α) {s : σ} {t : τ} (h : R s t) : Agrees R (.ok a s) (.ok a t)
  | error (e : ParseError) {s : σ} {t : τ} (h : R s t) : Agrees R (.error e s) (.error e t)

/-- From related places two computations have results that agree. -/
def Simulates (R S : σ → τ → Prop) (p : Parser σ α) (q : Parser τ α) : Prop :=
  ∀ s t, R s t → Agrees S (p s) (q t)

namespace Simulates

variable {R S T : σ → τ → Prop}

/-- Places may be related more narrowly before and more widely after. -/
theorem mono {R' S' : σ → τ → Prop} {p : Parser σ α} {q : Parser τ α} (h : Simulates R S p q)
    (hR : ∀ s t, R' s t → R s t) (hS : ∀ s t, S s t → S' s t) : Simulates R' S' p q := by
  intro s t hst
  have h := h s t (hR s t hst)
  generalize p s = x at h ⊢
  generalize q t = y at h ⊢
  cases h with
  | ok a h => exact .ok a (hS _ _ h)
  | error e h => exact .error e (hS _ _ h)

/-- The same value. -/
theorem pure (a : α) : Simulates R R (pure a : Parser σ α) (pure a : Parser τ α) :=
  fun _ _ h => .ok a h

/-- The same error. -/
theorem throw (e : ParseError) :
    Simulates R R (throw e : Parser σ α) (throw e : Parser τ α) :=
  fun _ _ h => .error e h

/-- One computation after the other. -/
theorem bind {p : Parser σ α} {q : Parser τ α} {f : α → Parser σ β} {g : α → Parser τ β}
    (hp : Simulates R S p q) (hf : ∀ a, Simulates S T (f a) (g a))
    (hST : ∀ s t, S s t → T s t) : Simulates R T (p >>= f) (q >>= g) := by
  intro s t hst
  have h := hp s t hst
  rw [bind_apply, bind_apply]
  generalize p s = x at h ⊢
  generalize q t = y at h ⊢
  cases h with
  | ok a h => exact hf a _ _ h
  | error e h => exact .error e (hST _ _ h)

/-- One computation after the other, at places related throughout in one way. -/
theorem andThen {p : Parser σ α} {q : Parser τ α} {f : α → Parser σ β} {g : α → Parser τ β}
    (hp : Simulates R R p q) (hf : ∀ a, Simulates R R (f a) (g a)) :
    Simulates R R (p >>= f) (q >>= g) :=
  bind hp hf fun _ _ h => h

/-- A computation whose value is not used. -/
theorem ignore {p : Parser σ α} {q : Parser τ α} {f : Unit → Parser σ β} {g : Unit → Parser τ β}
    (hp : Simulates R R p q) (hf : Simulates R R (f ()) (g ())) :
    Simulates R R (discard p >>= f) (discard q >>= g) := by
  rw [discard_bind, discard_bind]
  exact andThen hp fun _ => hf

/-- A computation whose value is dropped. -/
theorem discard {p : Parser σ α} {q : Parser τ α} (h : Simulates R S p q) :
    Simulates R S (Functor.discard p) (Functor.discard q) := by
  intro s t hst
  have h := h s t hst
  show Agrees S (EStateM.map (Function.const α ()) p s) (EStateM.map (Function.const α ()) q t)
  unfold EStateM.map
  generalize p s = x at h ⊢
  generalize q t = y at h ⊢
  cases h with
  | ok a h => exact .ok _ h
  | error e h => exact .error e h

/-- A choice that both computations make alike. -/
theorem ite {c : Prop} [Decidable c] {p p' : Parser σ α} {q q' : Parser τ α}
    (h : c → Simulates R S p q) (h' : ¬c → Simulates R S p' q') :
    Simulates R S (if c then p else p') (if c then q else q') := by
  split
  · next hc => exact h hc
  · next hc => exact h' hc

/-- An attempt, which comes back to where it began if it fails. -/
theorem attempt? {p : Parser σ α} {q : Parser τ α} (h : Simulates R S p q)
    (hRS : ∀ s t, R s t → S s t) : Simulates R S (attempt? p) (attempt? q) := by
  intro s t hst
  have h := h s t hst
  unfold Parser.attempt?
  generalize p s = x at h ⊢
  generalize q t = y at h ⊢
  cases h with
  | ok a h => exact .ok _ h
  | error e h => exact .ok _ (hRS _ _ hst)

/-- A trial, which always comes back to where it began. -/
theorem succeeds {p : Parser σ α} {q : Parser τ α} (h : Simulates R S p q) :
    Simulates R R (succeeds p) (succeeds q) := by
  intro s t hst
  have h := h s t hst
  unfold Parser.succeeds
  generalize p s = x at h ⊢
  generalize q t = y at h ⊢
  cases h with
  | ok a h => exact .ok _ hst
  | error e h => exact .ok _ hst

end Simulates

/-! ## Sources that give the same tokens -/

variable [TokenSource σ] [TokenSource τ]

/-- Places related by `S` give the same next token, and are related by `S` again whether it is
consumed or not. Once a token has been consumed that is not the last, they are related by `R`,
which is narrower. -/
structure SameTokens (S R : σ → τ → Prop) : Prop where
  narrower : ∀ s t, R s t → S s t
  peek : ∀ s t, S s t → (TokenSource.peek s).1 = (TokenSource.peek t).1 ∧
    S (TokenSource.peek s).2 (TokenSource.peek t).2
  advance_peek : ∀ s t, S s t →
    (TokenSource.advance (TokenSource.peek s).2).1 = (TokenSource.peek s).1
  advance : ∀ s t, S s t → (TokenSource.advance s).1 = (TokenSource.advance t).1 ∧
    S (TokenSource.advance s).2 (TokenSource.advance t).2
  consume : ∀ s t, S s t → (TokenSource.advance s).1.kind ≠ .endOfFile →
    R (TokenSource.advance s).2 (TokenSource.advance t).2

/-- The places are related, and a given token comes next. -/
def Before (S : σ → τ → Prop) (token : Token) (s : σ) (t : τ) : Prop :=
  S s t ∧ (TokenSource.advance s).1 = token

/-- The places are related, and a given token has been consumed. -/
def After (S R : σ → τ → Prop) (token : Token) (s : σ) (t : τ) : Prop :=
  S s t ∧ (token.kind ≠ .endOfFile → R s t)

section Steps

variable {S R : σ → τ → Prop} (hS : SameTokens S R)
include hS

/-- After a look at the next token that one comes next. -/
theorem Simulates.peek_bind {f : Token → Parser σ α} {g : Token → Parser τ α}
    (hf : ∀ token, Simulates (Before S token) S (f token) (g token)) :
    Simulates S S (Parser.peek >>= f) (Parser.peek >>= g) := by
  intro s t hst
  obtain ⟨htoken, hplace⟩ := hS.peek s t hst
  show Agrees S (f (TokenSource.peek s).1 (TokenSource.peek s).2)
    (g (TokenSource.peek t).1 (TokenSource.peek t).2)
  rw [← htoken]
  exact hf _ _ _ ⟨hplace, hS.advance_peek s t hst⟩

/-- The next token is consumed on both sources. -/
theorem Simulates.advance_bind {T : σ → τ → Prop} {f : Token → Parser σ α} {g : Token → Parser τ α}
    (hf : ∀ token, Simulates (After S R token) T (f token) (g token)) :
    Simulates S T (Parser.advance >>= f) (Parser.advance >>= g) := by
  intro s t hst
  obtain ⟨htoken, hplace⟩ := hS.advance s t hst
  show Agrees T (f (TokenSource.advance s).1 (TokenSource.advance s).2)
    (g (TokenSource.advance t).1 (TokenSource.advance t).2)
  rw [← htoken]
  exact hf _ _ _ ⟨hplace, hS.consume s t hst⟩

/-- A token that is not the last is consumed, and then the narrower relation holds. -/
theorem Simulates.consume {T : σ → τ → Prop} (token : Token) (htoken : token.kind ≠ .endOfFile)
    {f : Unit → Parser σ α} {g : Unit → Parser τ α} (hf : Simulates R T (f ()) (g ())) :
    Simulates (Before S token) T (Functor.discard Parser.advance >>= f)
      (Functor.discard Parser.advance >>= g) := by
  rw [discard_bind, discard_bind]
  intro s t hst
  obtain ⟨hst, rfl⟩ := hst
  show Agrees T (f () (TokenSource.advance s).2) (g () (TokenSource.advance t).2)
  exact hf _ _ (hS.consume s t hst htoken)

/-- A look at the next token shows the same one on both sources. -/
theorem Simulates.peek : Simulates S S (Parser.peek : Parser σ Token) Parser.peek :=
  .peek_bind hS fun token => .mono (.pure token) (fun _ _ h => h.1) fun _ _ h => h

/-- The token that is consumed is the same one on both sources. -/
theorem Simulates.advance : Simulates S S (Parser.advance : Parser σ Token) Parser.advance :=
  .advance_bind hS fun token => .mono (.pure token) (fun _ _ h => h.1) fun _ _ h => h

/-- A token is expected on both sources or on neither. -/
theorem Simulates.expect (kind : TokenKind) :
    Simulates S S (Parser.expect kind : Parser σ Token) (Parser.expect kind) :=
  .advance_bind hS fun _ =>
    .mono (.ite (fun _ => .pure _) fun _ => .throw _) (fun _ _ h => h.1) fun _ _ h => h

end Steps

/-! ## The rules -/

/-- The rules of one record simulate those of another. -/
structure Rules.Simulates (R : σ → τ → Prop) (deeper : Rules σ) (deeper' : Rules τ) : Prop where
  factor : Parser.Simulates R R deeper.factor deeper'.factor
  term : Parser.Simulates R R deeper.term deeper'.term
  expression : Parser.Simulates R R deeper.expression deeper'.expression
  calls : ∀ callee, Parser.Simulates R R (deeper.calls callee) (deeper'.calls callee)
  moreArguments : Parser.Simulates R R deeper.moreArguments deeper'.moreArguments
  moreFactors : ∀ left, Parser.Simulates R R (deeper.moreFactors left) (deeper'.moreFactors left)
  moreTerms : ∀ left, Parser.Simulates R R (deeper.moreTerms left) (deeper'.moreTerms left)

section Rules

variable {S R : σ → τ → Prop} {deeper : Rules σ} {deeper' : Rules τ}
  (hS : SameTokens S R) (hR : SameTokens R R) (hdeeper : deeper.Simulates R deeper')
include hS hdeeper

/-- More arguments start with a comma, which is consumed before the level below is used. -/
theorem moreArguments_simulates :
    Simulates S S (moreArguments deeper) (moreArguments deeper') := by
  refine .peek_bind hS fun token => .ite (fun hcomma => ?_) fun _ => ?_
  · -- Behind the comma `R` holds, so the level below may be used.
    refine .consume hS token (by simp [hcomma]) (.mono ?_ (fun _ _ h => h) hS.narrower)
    exact .andThen hdeeper.expression fun _ => .andThen hdeeper.moreArguments fun _ => .pure _
  · exact .mono (.pure _) (fun _ _ h => h.1) fun _ _ h => h

/-- More factors start with an operator, which is consumed before the level below is used. -/
theorem moreFactors_simulates (left : SyntaxTree) :
    Simulates S S (moreFactors deeper left) (moreFactors deeper' left) := by
  refine .peek_bind hS fun token => .ite (fun hjoins => ?_) fun _ => ?_
  · refine .consume hS token ?_ (.mono ?_ (fun _ _ h => h) hS.narrower)
    · intro hend
      simp [hend, TokenKind.joinsFactors] at hjoins
    · exact .andThen hdeeper.factor fun _ => hdeeper.moreFactors _
  · exact .mono (.pure _) (fun _ _ h => h.1) fun _ _ h => h

/-- More terms start with a sign, which is consumed before the level below is used. -/
theorem moreTerms_simulates (left : SyntaxTree) :
    Simulates S S (moreTerms deeper left) (moreTerms deeper' left) := by
  refine .peek_bind hS fun token => .ite (fun hsign => ?_) fun _ => ?_
  · refine .consume hS token ?_ (.mono ?_ (fun _ _ h => h) hS.narrower)
    · intro hend
      simp [hend, TokenKind.isSign] at hsign
    · exact .andThen hdeeper.term fun _ => hdeeper.moreTerms _
  · exact .mono (.pure _) (fun _ _ h => h.1) fun _ _ h => h

omit hS in
include hR in
/-- Arguments start with an expression of the level below. So `R` has to hold before them. -/
theorem arguments_simulates : Simulates R R (arguments deeper) (arguments deeper') := by
  refine .andThen (.attempt? hdeeper.expression fun _ _ h => h) fun first => ?_
  -- The attempt has the same outcome on both sources, so they go on alike.
  cases first with
  | none => exact .pure _
  | some first => exact .andThen (moreArguments_simulates hR hdeeper) fun _ => .pure _

include hR

/-- Calls start with a parenthesis, behind which `R` holds before the arguments. -/
theorem calls_simulates (callee : SyntaxTree) :
    Simulates S S (calls deeper callee) (calls deeper' callee) := by
  refine .peek_bind hS fun token => .ite (fun hopen => ?_) fun _ => ?_
  · refine .consume hS token (by simp [hopen]) (.mono ?_ (fun _ _ h => h) hS.narrower)
    refine .andThen (arguments_simulates hR hdeeper) fun _ => ?_
    exact .ignore (.expect hR _) (hdeeper.calls _)
  · exact .mono (.pure _) (fun _ _ h => h.1) fun _ _ h => h

/-- An atom starts with a token that is consumed before the level below is used. -/
theorem atom_simulates : Simulates S S (atom deeper) (atom deeper') := by
  refine .advance_bind hS fun token =>
    .ite (fun _ => ?_) fun _ => .ite (fun hopen => ?_) fun _ => ?_
  · exact .mono (calls_simulates hS hR hdeeper _) (fun _ _ h => h.1) fun _ _ h => h
  · -- The parenthesis is not the last token, so behind it `R` holds throughout.
    refine .mono ?_ (fun _ _ h => h.2 (by simp [hopen])) hS.narrower
    refine .andThen hdeeper.expression fun tree => ?_
    exact .ignore (.expect hR _) (calls_simulates hR hR hdeeper _)
  · exact .mono (.throw _) (fun _ _ h => h.1) fun _ _ h => h

/-- A primary starts with an atom, and its exponent stands behind a caret. -/
theorem primary_simulates : Simulates S S (primary deeper) (primary deeper') := by
  refine .andThen (atom_simulates hS hR hdeeper) fun base => ?_
  refine .peek_bind hS fun token => .ite (fun hcaret => ?_) fun _ => ?_
  · refine .consume hS token (by simp [hcaret]) (.mono ?_ (fun _ _ h => h) hS.narrower)
    exact .andThen hdeeper.factor fun _ => .pure _
  · exact .mono (.pure _) (fun _ _ h => h.1) fun _ _ h => h

/-- Whether a sign is an operand is tried behind it, where `R` holds. -/
theorem signIsOperand_simulates {sign : Token} (hsign : sign.kind ≠ .endOfFile) :
    Simulates (Before S sign) (Before S sign) (signIsOperand deeper) (signIsOperand deeper') := by
  -- What is tried behind the sign. It ends at other places, but a trial comes back from them.
  have hrest : Simulates R R
      (peek >>= fun operator =>
        if operator.kind.joinsFactors ∨ operator.kind = .caret then
          discard deeper.factor >>= fun _ => discard deeper.factor
        else throw ⟨[], operator⟩)
      (peek >>= fun operator =>
        if operator.kind.joinsFactors ∨ operator.kind = .caret then
          discard deeper'.factor >>= fun _ => discard deeper'.factor
        else throw ⟨[], operator⟩) := by
    refine .peek_bind hR fun token => .ite (fun _ => ?_) fun _ => ?_
    · refine .mono (.ignore hdeeper.factor ?_) (fun _ _ h => h.1) fun _ _ h => h
      exact .discard hdeeper.factor
    · exact .mono (.throw _) (fun _ _ h => h.1) fun _ _ h => h
  exact .succeeds (.consume hS sign hsign hrest)

/-- A factor is a primary, or it stands behind a sign, where `R` holds. -/
theorem factor_simulates : Simulates S S (factor deeper) (factor deeper') := by
  have hprimary := primary_simulates hS hR hdeeper
  refine .peek_bind hS fun sign => .ite (fun hsign => ?_) fun _ => ?_
  · have hend : sign.kind ≠ .endOfFile := by
      intro hend
      simp [hend, TokenKind.isSign] at hsign
    refine .bind (signIsOperand_simulates hS hR hdeeper hend) (fun operand => ?_) fun _ _ h => h.1
    refine .ite (fun _ => .mono hprimary (fun _ _ h => h.1) fun _ _ h => h) fun _ => ?_
    -- The sign still comes next, and the attempt at a prefix consumes it before the factor.
    have hunary : Simulates (Before S sign) S (discard advance >>= fun _ => deeper.factor)
        (discard advance >>= fun _ => deeper'.factor) :=
      .consume hS sign hend (.mono hdeeper.factor (fun _ _ h => h) hS.narrower)
    refine .bind (.attempt? hunary fun _ _ h => h.1) (fun operand => ?_) fun _ _ h => h
    cases operand with
    | some operand => exact .pure _
    | none => exact hprimary
  · exact .mono hprimary (fun _ _ h => h.1) fun _ _ h => h

/-- A term starts with a factor of its own level. -/
theorem term_simulates : Simulates S S (term deeper) (term deeper') :=
  .andThen (factor_simulates hS hR hdeeper) fun _ => moreFactors_simulates hS hdeeper _

/-- An expression starts with a term of its own level. -/
theorem expression_simulates : Simulates S S (expression deeper) (expression deeper') :=
  .andThen (term_simulates hS hR hdeeper) fun _ => moreTerms_simulates hS hdeeper _

/-- Rules that simulate one another where `R` holds do so one level up where `S` holds, since each
of them consumes a token before it refers to the level below. -/
theorem nextRules_simulates : (nextRules deeper).Simulates S (nextRules deeper') where
  factor := factor_simulates hS hR hdeeper
  term := term_simulates hS hR hdeeper
  expression := expression_simulates hS hR hdeeper
  calls := calls_simulates hS hR hdeeper
  moreArguments := moreArguments_simulates hS hdeeper
  moreFactors := moreFactors_simulates hS hdeeper
  moreTerms := moreTerms_simulates hS hdeeper

end Rules

/-! ## Whole productions -/

/-- What is read for a production with the rules of a record. -/
def readWith (deeper : Rules σ) : Production → Parser σ SyntaxTree
  | .atom => atom deeper
  | .primary => primary deeper
  | .factor => factor deeper
  | .term => term deeper
  | .expression => expression deeper
  | .complete => do
    let tree ← expression deeper
    discard <| expect .endOfFile
    return tree

/-- A production is read with as many levels as the source asks for. -/
theorem read_apply (p : Production) (s : σ) :
    (read p : Parser σ SyntaxTree) s = readWith (rules (TokenSource.size s)) p s := by
  cases p <;> rfl

/-- A production is read alike with rules that simulate one another. -/
theorem readWith_simulates {S R : σ → τ → Prop} {deeper : Rules σ} {deeper' : Rules τ}
    (hS : SameTokens S R) (hR : SameTokens R R) (hdeeper : deeper.Simulates R deeper')
    (p : Production) : Simulates S S (readWith deeper p) (readWith deeper' p) := by
  cases p with
  | atom => exact atom_simulates hS hR hdeeper
  | primary => exact primary_simulates hS hR hdeeper
  | factor => exact factor_simulates hS hR hdeeper
  | term => exact term_simulates hS hR hdeeper
  | expression => exact expression_simulates hS hR hdeeper
  | complete =>
    refine .andThen (expression_simulates hS hR hdeeper) fun tree => ?_
    exact .ignore (.expect hS .endOfFile) (.pure tree)

/-- On sources that give the same tokens, the rules of one level simulate one another. -/
theorem rules_simulates {R : σ → τ → Prop} (hR : SameTokens R R) (n : Nat) :
    (rules n : Rules σ).Simulates R (rules n) := by
  induction n with
  | zero =>
    have hfail : ∀ {α : Type}, Simulates R R (fail : Parser σ α) fail := fun {_} =>
      .peek_bind hR fun _ => .mono (.throw _) (fun _ _ h => h.1) fun _ _ h => h
    exact ⟨hfail, hfail, hfail, fun _ => hfail, hfail, fun _ => hfail, fun _ => hfail⟩
  | succ n ih => exact nextRules_simulates hR hR ih

/-! ## Enough levels -/

section Levels

variable {R : Nat → σ → τ → Prop}
  (hR : ∀ n m, n ≤ m → m ≤ n + 1 → SameTokens (R m) (R n)) (hzero : ∀ s t, ¬R 0 s t)
include hR hzero

/-- With a relation for each number of tokens, which holds of places with fewer tokens left than
that, rules of two levels simulate one another where there are no more tokens than levels. -/
theorem rules_agree {n m k : Nat} (hn : k ≤ n) (hm : k ≤ m) :
    (rules n : Rules σ).Simulates (R k) (rules m : Rules τ) := by
  induction k generalizing n m with
  | zero =>
    have hvacuous : ∀ {α : Type} (p : Parser σ α) (q : Parser τ α),
        Simulates (R 0) (R 0) p q := fun _ _ s t h => absurd h (hzero s t)
    exact ⟨hvacuous _ _, hvacuous _ _, hvacuous _ _, fun _ => hvacuous _ _, hvacuous _ _,
      fun _ => hvacuous _ _, fun _ => hvacuous _ _⟩
  | succ k ih =>
    obtain ⟨n, rfl⟩ : ∃ n', n = n' + 1 := ⟨n - 1, by omega⟩
    obtain ⟨m, rfl⟩ : ∃ m', m = m' + 1 := ⟨m - 1, by omega⟩
    -- One level down there is one token less on both sources.
    exact nextRules_simulates (hR k (k + 1) (by omega) (by omega))
      (hR k k (by omega) (by omega)) (ih (by omega) (by omega))

/-- A production is read alike from two places if both sources ask for as many levels as there are
tokens left. -/
theorem read_agrees {n : Nat} {s : σ} {t : τ} (h : R (n + 1) s t) (hs : n ≤ TokenSource.size s)
    (ht : n ≤ TokenSource.size t) (p : Production) :
    Agrees (R (n + 1)) ((read p : Parser σ SyntaxTree) s) ((read p : Parser τ SyntaxTree) t) := by
  rw [read_apply, read_apply]
  exact readWith_simulates (hR n (n + 1) (by omega) (by omega)) (hR n n (by omega) (by omega))
    (rules_agree hR hzero hs ht) p s t h

end Levels

end LineCalc.Parser
