import LineCalc.Proofs.Parsing.Simulation

/-!
# Parsing lists of tokens

The plainest source of tokens is a list, with one more token after it that comes again and again.
On lists the number of levels from which the rules are built does not matter as long as there is
one for each token (`rules_agree`). So there are rules without levels, `Words.rules`, which
are their own next level (`nextRules_rules`): they satisfy the equations of the grammar as they
are written in `Parser`, and proofs about them go by induction on the list.
-/

namespace LineCalc

/-- A list of tokens, before a last token that is never used up. -/
structure Words (last : Token) where
  /-- The tokens before the last one. -/
  list : List Token

namespace Words

variable {last : Token}

/-- The last token of a source is not consumed, so that there is always a next one. -/
instance : TokenSource (Words last) where
  peek w := (w.list.headD last, w)
  advance w := (w.list.headD last, ⟨w.list.tail⟩)
  size w := w.list.length + 1

/-- The same list, of fewer than so many tokens. -/
def Below (n : Nat) (w w' : Words last) : Prop :=
  w = w' ∧ w.list.length < n

/-- A token that is consumed and is not the last one makes the list shorter. -/
theorem sameTokens_below (hlast : last.kind = .endOfFile) {n m : Nat} (hnm : n ≤ m)
    (hmn : m ≤ n + 1) : Parser.SameTokens (@Below last m) (Below n) where
  narrower := fun _ _ h => ⟨h.1, by have := h.2; omega⟩
  peek := by
    rintro w _ ⟨rfl, hw⟩
    exact ⟨rfl, rfl, hw⟩
  advance_peek := fun _ _ _ => rfl
  advance := by
    rintro ⟨list⟩ _ ⟨rfl, hw⟩
    refine ⟨rfl, rfl, ?_⟩
    show list.tail.length < m
    have hw : list.length < m := hw
    rw [List.length_tail]
    omega
  consume := by
    -- Only the last token comes when the list is empty, so a token has gone from the list.
    rintro ⟨list⟩ _ ⟨rfl, hw⟩ hkind
    refine ⟨rfl, ?_⟩
    show list.tail.length < n
    have hw : list.length < m := hw
    cases list with
    | nil => exact absurd hlast hkind
    | cons token list =>
      simp only [List.length_cons] at hw
      simp only [List.tail_cons]
      omega

/-- Rules of two levels agree on lists of fewer tokens than either has levels. -/
theorem rules_agree (hlast : last.kind = .endOfFile) {n m k : Nat} (hn : k ≤ n) (hm : k ≤ m) :
    (Parser.rules n : Parser.Rules (Words last)).Simulates (Below k) (Parser.rules m) :=
  Parser.rules_agree (fun _ _ => sameTokens_below hlast)
    (fun _ _ h => absurd h.2 (Nat.not_lt_zero _)) hn hm

/-! ## Rules without levels -/

/-- A computation given for every level, run with one level for each token and one more. -/
def atSize {α : Type} (p : Nat → Parser (Words last) α) : Parser (Words last) α := fun w =>
  p (w.list.length + 1) w

/-- The rules for lists of any length. -/
def rules : Parser.Rules (Words last) where
  factor := atSize fun n => (Parser.rules n).factor
  term := atSize fun n => (Parser.rules n).term
  expression := atSize fun n => (Parser.rules n).expression
  calls callee := atSize fun n => (Parser.rules n).calls callee
  moreArguments := atSize fun n => (Parser.rules n).moreArguments
  moreFactors left := atSize fun n => (Parser.rules n).moreFactors left
  moreTerms left := atSize fun n => (Parser.rules n).moreTerms left

/-- On lists of fewer tokens than there are levels the rules are those without levels. -/
theorem rules_simulates (hlast : last.kind = .endOfFile) (n : Nat) :
    (Parser.rules n : Parser.Rules (Words last)).Simulates (Below n) rules := by
  -- A list of fewer than `n` tokens is run with at most `n` levels, which make no difference.
  have hsize : ∀ {α : Type} (p : Nat → Parser (Words last) α),
      (∀ m k, k ≤ n → k ≤ m → Parser.Simulates (Below k) (Below k) (p n) (p m)) →
      Parser.Simulates (Below n) (Below n) (p n) (atSize p) := by
    rintro α p hp w _ ⟨rfl, hw⟩
    have h := hp (w.list.length + 1) (w.list.length + 1) (by omega) (by omega) w w ⟨rfl, by omega⟩
    unfold atSize
    generalize p n w = x at h ⊢
    generalize p (w.list.length + 1) w = y at h ⊢
    cases h with
    | ok a h => exact .ok a ⟨h.1, by have := h.2; omega⟩
    | error e h => exact .error e ⟨h.1, by have := h.2; omega⟩
  exact {
    factor := hsize (fun m => (Parser.rules m).factor) fun m k hn hm =>
      (rules_agree hlast hn hm).factor
    term := hsize (fun m => (Parser.rules m).term) fun m k hn hm =>
      (rules_agree hlast hn hm).term
    expression := hsize (fun m => (Parser.rules m).expression) fun m k hn hm =>
      (rules_agree hlast hn hm).expression
    calls := fun callee => hsize (fun m => (Parser.rules m).calls callee) fun m k hn hm =>
      (rules_agree hlast hn hm).calls callee
    moreArguments := hsize (fun m => (Parser.rules m).moreArguments) fun m k hn hm =>
      (rules_agree hlast hn hm).moreArguments
    moreFactors := fun left => hsize (fun m => (Parser.rules m).moreFactors left) fun m k hn hm =>
      (rules_agree hlast hn hm).moreFactors left
    moreTerms := fun left => hsize (fun m => (Parser.rules m).moreTerms left) fun m k hn hm =>
      (rules_agree hlast hn hm).moreTerms left }

/-- Two computations that are simulated by the same ones at every length are equal. -/
theorem eq_of_simulates {α : Type} {p : Nat → Parser (Words last) α} {q q' : Parser (Words last) α}
    (h : ∀ n, Parser.Simulates (Below (n + 1)) (Below (n + 1)) (p n) q)
    (h' : ∀ n, Parser.Simulates (Below (n + 1)) (Below (n + 1)) (p n) q') : q = q' := by
  funext w
  have h := h w.list.length w w ⟨rfl, by omega⟩
  have h' := h' w.list.length w w ⟨rfl, by omega⟩
  generalize p w.list.length w = x at h h'
  generalize q w = y at h ⊢
  generalize q' w = y' at h' ⊢
  cases h with
  | ok a h =>
    cases h' with
    | ok _ h' => rw [← h.1, ← h'.1]
  | error e h =>
    cases h' with
    | error _ h' => rw [← h.1, ← h'.1]

/-- The rules without levels are their own next level. -/
theorem nextRules_rules (hlast : last.kind = .endOfFile) :
    Parser.nextRules (rules : Parser.Rules (Words last)) = rules := by
  -- The rules of level `n + 1` agree with both, and every list is short enough for some level.
  have hnext : ∀ n, (Parser.nextRules (Parser.rules n)).Simulates (Below (n + 1))
      (Parser.nextRules (rules : Parser.Rules (Words last))) := fun n =>
    Parser.nextRules_simulates (sameTokens_below hlast (by omega) (by omega))
      (sameTokens_below hlast (by omega) (by omega)) (rules_simulates hlast n)
  have hself : ∀ n, (Parser.nextRules (Parser.rules n)).Simulates (Below (n + 1))
      (rules : Parser.Rules (Words last)) := fun n => rules_simulates hlast (n + 1)
  have hfactor := eq_of_simulates (fun n => (hnext n).factor) fun n => (hself n).factor
  have hterm := eq_of_simulates (fun n => (hnext n).term) fun n => (hself n).term
  have hexpression := eq_of_simulates (fun n => (hnext n).expression) fun n => (hself n).expression
  have hcalls := funext fun callee =>
    eq_of_simulates (fun n => (hnext n).calls callee) fun n => (hself n).calls callee
  have hmoreArguments :=
    eq_of_simulates (fun n => (hnext n).moreArguments) fun n => (hself n).moreArguments
  have hmoreFactors := funext fun left =>
    eq_of_simulates (fun n => (hnext n).moreFactors left) fun n => (hself n).moreFactors left
  have hmoreTerms := funext fun left =>
    eq_of_simulates (fun n => (hnext n).moreTerms left) fun n => (hself n).moreTerms left
  calc Parser.nextRules rules
      = ⟨(Parser.nextRules rules).factor, (Parser.nextRules rules).term,
          (Parser.nextRules rules).expression, (Parser.nextRules rules).calls,
          (Parser.nextRules rules).moreArguments, (Parser.nextRules rules).moreFactors,
          (Parser.nextRules rules).moreTerms⟩ := rfl
    _ = rules := by
      rw [hfactor, hterm, hexpression, hcalls, hmoreArguments, hmoreFactors, hmoreTerms]

end Words

end LineCalc
