import LineCalc.Parser.Pool
import LineCalc.Proofs.Lexing.Partition
import LineCalc.Proofs.Parsing.Places

/-!
# Parsers as indices into the tokens

A parser on a text is a cursor and a buffer, but all that its steps show is an index into the
tokens of the text. `Position` is that index, as a source of tokens on its own, and
`Lookahead.StandsAt` says which cursors and buffers have a given index: the cursor is behind the
tokens before it, or behind one more token, which is then the one in the buffer. A parser and its
index give the same tokens (`sameTokens_standsAt`) and read the same trees (`read_simulates`).

Then several parsers do so, in whatever order they are stepped (`Parser.runSteps_eq`).
-/

namespace LineCalc

namespace Parser

/-! ## Several parsers on related sources -/

section Several

variable {σ τ : Type}

/-- What is not in a list is not in one of the same length. -/
theorem getElem?_eq_none_of_length_eq {entries : List σ} {others : List τ}
    (hlength : entries.length = others.length) {k : Nat} (hk : entries[k]? = none) :
    others[k]? = none := by
  rw [List.getElem?_eq_none_iff] at hk ⊢
  exact hlength ▸ hk

/-- What is found in a list with one entry is that entry. -/
theorem eq_of_getElem?_singleton {k : Nat} {a b : σ} (h : [a][k]? = some b) : k = 0 ∧ b = a := by
  rw [List.getElem?_singleton, Option.ite_none_right_eq_some] at h
  exact ⟨h.1, (Option.some.inj h.2).symm⟩

/-- What is found in a list with one entry replaced is the new entry or one of the others. -/
theorem eq_of_getElem?_set {entries : List σ} {i k : Nat} {a b : σ}
    (h : (entries.set i a)[k]? = some b) :
    (k = i ∧ k < entries.length ∧ b = a) ∨ (k ≠ i ∧ entries[k]? = some b) := by
  by_cases hk : k = i
  · subst hk
    have hlt : k < entries.length := by simpa using (List.getElem?_eq_some_iff.mp h).1
    rw [List.getElem?_set_self hlt] at h
    exact .inl ⟨rfl, hlt, (Option.some.inj h).symm⟩
  · rw [List.getElem?_set_ne (Ne.symm hk)] at h
    exact .inr ⟨hk, h⟩

/-- What is found in a list with one more entry is that entry or one of the others. -/
theorem eq_of_getElem?_concat {entries : List σ} {k : Nat} {a b : σ}
    (h : (entries ++ [a])[k]? = some b) :
    (k = entries.length ∧ b = a) ∨ (k < entries.length ∧ entries[k]? = some b) := by
  by_cases hk : k < entries.length
  · rw [List.getElem?_append_left hk] at h
    exact .inr ⟨hk, h⟩
  · have hlt := (List.getElem?_eq_some_iff.mp h).1
    rw [List.length_append, List.length_singleton] at hlt
    obtain rfl : k = entries.length := by omega
    rw [List.getElem?_concat_length] at h
    exact .inl ⟨rfl, (Option.some.inj h).symm⟩

/-- Parsers on one source and as many on another, each at a place that is related to that of its
fellow. -/
structure SamePlaces (R : σ → τ → Prop) (parsers : List σ) (others : List τ) : Prop where
  length : parsers.length = others.length
  related : ∀ (k : Nat) (s : σ) (t : τ), parsers[k]? = some s → others[k]? = some t → R s t

namespace SamePlaces

variable {R : σ → τ → Prop} {parsers : List σ} {others : List τ} {s : σ} {t : τ}

/-- A parser has a fellow. -/
theorem exists_related (h : SamePlaces R parsers others) {k : Nat} (hs : parsers[k]? = some s) :
    ∃ t, others[k]? = some t ∧ R s t := by
  have hk : k < others.length := h.length ▸ (List.getElem?_eq_some_iff.mp hs).1
  exact ⟨others[k], List.getElem?_eq_getElem hk, h.related k s _ hs (List.getElem?_eq_getElem hk)⟩

/-- The places that are taken instead of missing ones are related if these are. -/
theorem getD (h : SamePlaces R parsers others) (hst : R s t) (k : Nat) :
    R (parsers.getD k s) (others.getD k t) := by
  rw [List.getD_eq_getElem?_getD, List.getD_eq_getElem?_getD]
  cases hk : parsers[k]? with
  | none =>
    rw [getElem?_eq_none_of_length_eq h.length hk]
    exact hst
  | some s =>
    obtain ⟨t, ht, hrelated⟩ := h.exists_related hk
    rw [ht]
    exact hrelated

/-- A parser and its fellow move to related places. -/
theorem set (h : SamePlaces R parsers others) (hst : R s t) (on : Nat) :
    SamePlaces R (parsers.set on s) (others.set on t) := by
  refine ⟨by simp [h.length], fun k s' t' hs ht => ?_⟩
  rcases eq_of_getElem?_set hs with ⟨rfl, -, rfl⟩ | ⟨hk, hs⟩
  · rcases eq_of_getElem?_set ht with ⟨-, -, rfl⟩ | ⟨hk, -⟩
    · exact hst
    · exact absurd rfl hk
  · rw [List.getElem?_set_ne (Ne.symm hk)] at ht
    exact h.related k s' t' hs ht

/-- One more parser and its fellow come at related places. -/
theorem concat (h : SamePlaces R parsers others) (hst : R s t) :
    SamePlaces R (parsers ++ [s]) (others ++ [t]) := by
  refine ⟨by simp [h.length], fun k s' t' hs ht => ?_⟩
  rcases eq_of_getElem?_concat hs with ⟨rfl, rfl⟩ | ⟨hk, hs⟩
  · rw [h.length, List.getElem?_concat_length] at ht
    obtain rfl := Option.some.inj ht
    exact hst
  · rw [List.getElem?_append_left (h.length ▸ hk)] at ht
    exact h.related k s' t' hs ht

end SamePlaces

variable [TokenSource σ] [TokenSource τ]

/-- Where the parsers are after steps. A step of a parser that does not exist ends the run. -/
def placesAfter : List σ → List (Nat × Step) → List σ
  | parsers, [] => parsers
  | parsers, (on, step) :: steps =>
    match parsers[on]? with
    | none => parsers
    | some s => placesAfter (step.run on s parsers).2 steps

/-- A step of one parser leaves the others where they are. -/
theorem Step.run_getElem?_of_ne (step : Step) (on : Nat) (s : σ) {parsers : List σ} {k : Nat}
    (hne : on ≠ k) (hk : k < parsers.length) : (step.run on s parsers).2[k]? = parsers[k]? := by
  cases step with
  | clone => exact List.getElem?_append_left hk
  | peek => exact List.getElem?_set_ne hne
  | advance => exact List.getElem?_set_ne hne
  | expect kind => exact List.getElem?_set_ne hne
  | commit source => exact List.getElem?_set_ne hne
  | read production => exact List.getElem?_set_ne hne

/-- No parser is lost in a step. -/
theorem Step.length_le_run (step : Step) (on : Nat) (s : σ) (parsers : List σ) :
    parsers.length ≤ (step.run on s parsers).2.length := by
  cases step with
  | clone => simp [Step.run]
  | peek => simp [Step.run]
  | advance => simp [Step.run]
  | expect kind => simp [Step.run]
  | commit source => simp [Step.run]
  | read production => simp [Step.run]

/-- One more step, of another parser, leaves a parser where it is after some steps. -/
theorem placesAfter_concat (parsers : List σ) (steps : List (Nat × Step)) {on : Nat} (step : Step)
    {k : Nat} (hne : on ≠ k) (hk : k < (placesAfter parsers steps).length) :
    (placesAfter parsers (steps ++ [(on, step)]))[k]? = (placesAfter parsers steps)[k]? := by
  induction steps generalizing parsers with
  | nil =>
    simp only [List.nil_append, placesAfter]
    cases parsers[on]? with
    | none => rfl
    | some s => exact step.run_getElem?_of_ne on s hne hk
  | cons first steps ih =>
    obtain ⟨other, earlier⟩ := first
    simp only [List.cons_append, placesAfter] at hk ⊢
    cases hother : parsers[other]? with
    | none => rfl
    | some s =>
      simp only [hother] at hk
      exact ih _ hk

omit [TokenSource σ] [TokenSource τ] in
/-- Computations with results that agree give the same reply, and related places. -/
theorem Agrees.reply {α : Type} {R : σ → τ → Prop} {p : Parser σ α} {q : Parser τ α} {s : σ} {t : τ}
    (h : Agrees R (p s) (q t)) (f : α → Reply) :
    (reply p f s).1 = (reply q f t).1 ∧ R (reply p f s).2 (reply q f t).2 := by
  unfold Parser.reply
  generalize p s = x at h ⊢
  generalize q t = y at h ⊢
  cases h with
  | ok a h => exact ⟨rfl, h⟩
  | error e h => exact ⟨rfl, h⟩

section

variable {R : σ → τ → Prop} (hR : SameTokens R R)
  (hread : ∀ p : Production,
    Simulates R R (read p : Parser σ SyntaxTree) (read p : Parser τ SyntaxTree))
include hR hread

/-- A step gives the same reply on both sources, and the parsers stay at related places. -/
theorem run_agrees {parsers : List σ} {others : List τ} (h : SamePlaces R parsers others)
    {s : σ} {t : τ} (hst : R s t) (on : Nat) (step : Step) :
    (step.run on s parsers).1 = (step.run on t others).1 ∧
      SamePlaces R (step.run on s parsers).2 (step.run on t others).2 := by
  have hmoved : ∀ {α : Type} {p : Parser σ α} {q : Parser τ α} (f : α → Reply),
      Agrees R (p s) (q t) → (reply p f s).1 = (reply q f t).1 ∧
        SamePlaces R (parsers.set on (reply p f s).2) (others.set on (reply q f t).2) :=
    fun f hagrees => ⟨(hagrees.reply f).1, h.set (hagrees.reply f).2 on⟩
  cases step with
  | peek => exact hmoved .token (Simulates.peek hR s t hst)
  | advance => exact hmoved .token (Simulates.advance hR s t hst)
  | expect kind => exact hmoved .token (Simulates.expect hR kind s t hst)
  | clone => exact ⟨congrArg Reply.clone h.length, h.concat hst⟩
  | commit source => exact ⟨rfl, h.set (h.getD hst source) on⟩
  | read production => exact hmoved .tree (hread production s t hst)

/-- Any steps give the same replies on both sources, and the parsers stay at related places. -/
theorem runSteps_eq {parsers : List σ} {others : List τ} (h : SamePlaces R parsers others)
    (steps : List (Nat × Step)) :
    runSteps parsers steps = runSteps others steps ∧
      SamePlaces R (placesAfter parsers steps) (placesAfter others steps) := by
  induction steps generalizing parsers others with
  | nil => exact ⟨rfl, h⟩
  | cons first steps ih =>
    obtain ⟨on, step⟩ := first
    cases hon : parsers[on]? with
    | none =>
      simp only [runSteps, placesAfter, hon, getElem?_eq_none_of_length_eq h.length hon]
      exact ⟨trivial, h⟩
    | some s =>
      obtain ⟨t, ht, hst⟩ := h.exists_related hon
      obtain ⟨hreply, hplaces⟩ := run_agrees hR hread h hst on step
      obtain ⟨hreplies, hafter⟩ := ih hplaces
      -- A parser also shows what comes next, and the places that it does so from are related.
      have hnext := (hR.peek _ _ (hplaces.getD hst on)).1
      simp only [runSteps, placesAfter, hon, ht]
      exact ⟨by rw [hreply, hnext, hreplies], hafter⟩

end

end Several

end Parser

/-! ## Places in a text -/

/-- A place in a text: how many of its tokens come before it. -/
structure Position (source : String) where
  /-- The number of tokens before the place. -/
  index : Nat
deriving DecidableEq

namespace Cursor

variable {source : String}

/-- Reads stay in the same text. -/
theorem after_source (cursor : Cursor) (k : Nat) : (cursor.after k).source = cursor.source := by
  induction k with
  | zero => rfl
  | succ k ih => rw [after, next_source, ih]

/-- Before the end of the file, the tokens that are left after some reads are those behind the ones
that have been read. -/
theorem tokens_after {k : Nat} (hk : k < (lex source).length) :
    ((ofString source).after k).tokens = (lex source).drop k := by
  induction k with
  | zero => rfl
  | succ k ih =>
    have ih := ih (by omega)
    rw [tokens_eq] at ih
    split at ih
    · -- The end of the file would be the last of the tokens.
      have hlength := congrArg List.length ih
      rw [List.length_singleton, List.length_drop] at hlength
      omega
    · rw [after, ← List.drop_drop, ← ih]
      rfl

end Cursor

namespace Position

variable {source : String}

/-- The token at a place. The last one, the end of the file, is there again at every index behind
it. -/
def token (p : Position source) : Token :=
  (lex source).getD p.index (Cursor.endToken source.toList)

/-- The place behind the token. -/
def next (p : Position source) : Position source :=
  ⟨p.index + 1⟩

/-- How many tokens are left before the end of the file. -/
def left (p : Position source) : Nat :=
  (lex source).length - 1 - p.index

/-- A place has the token that stands there, and behind that comes the next place. -/
instance : TokenSource (Position source) where
  peek p := (p.token, p)
  advance p := (p.token, p.next)
  size p := (lex source).length - p.index

/-- There are no more tokens left behind a token than before it. -/
theorem left_next_le (p : Position source) : p.next.left ≤ p.left :=
  Nat.sub_le_sub_left (Nat.le_succ _) _

/-- Behind a token that is not the end of the file there is one less left. -/
theorem left_next_lt (p : Position source) (h : p.token.kind ≠ .endOfFile) :
    p.next.left < p.left := by
  obtain ⟨w, hw, -⟩ := lex_eq_append source
  have hindex : p.index < w.length := by
    refine Nat.lt_of_not_le fun hle => h ?_
    rw [token, hw, List.getD_eq_getElem?_getD, List.getElem?_append_right hle]
    cases p.index - w.length <;> rfl
  unfold left
  show (lex source).length - 1 - (p.index + 1) < _
  rw [hw, List.length_append, List.length_singleton]
  omega

/-- The tokens at the places are those that are read from the start of the text one after the
other. -/
theorem token_ofString (p : Position source) :
    (Cursor.ofString source).token p.index = p.token := by
  obtain ⟨count, h⟩ := (Cursor.ofString source).exists_partition
  have hlex : lex source = (List.range (count + 1)).map (Cursor.ofString source).token := h.tokens
  rw [token, hlex, List.getD_eq_getElem?_getD, List.getElem?_map]
  by_cases hk : p.index < count + 1
  · rw [List.getElem?_range hk]
    rfl
  · rw [List.getElem?_eq_none (by simpa using hk)]
    exact h.atEnd p.index (by omega)

end Position

namespace Lookahead

variable {source : String} {s : Lookahead} {p : Position source}

/-- A parser is at a place in a text. Its cursor is behind the tokens before the place, or behind
the one at the place as well, and then that one is in the buffer. -/
inductive StandsAt : Lookahead → Position source → Prop
  | behind (p : Position source) : StandsAt ⟨(Cursor.ofString source).after p.index, none⟩ p
  | ahead (p : Position source) :
    StandsAt ⟨(Cursor.ofString source).after (p.index + 1), some (p.token)⟩ p

namespace StandsAt

/-- The parser sees the token at its place. -/
theorem peek_fst (h : StandsAt s p) : s.peek.1 = p.token := by
  cases h with
  | behind => exact p.token_ofString
  | ahead => rfl

/-- A look does not move the parser. -/
theorem peek (h : StandsAt s p) : StandsAt s.peek.2 p := by
  cases h with
  | behind =>
    have hahead := ahead p
    rw [← p.token_ofString] at hahead
    exact hahead
  | ahead => exact .ahead p

/-- A token that is consumed moves the parser by one. -/
theorem advance (h : StandsAt s p) : StandsAt s.advance.2 p.next := by
  cases h with
  | behind => exact .behind p.next
  | ahead => exact .behind p.next

/-- The token in the buffer is the one at the place, and the cursor stands at its end. -/
theorem buffered (h : StandsAt s p) {token : Token} (htoken : s.buffer = some token) :
    token = p.token ∧ s.cursor.source = source.toList ∧ s.cursor.pos = token.stop := by
  cases h with
  | behind => cases htoken
  | ahead =>
    obtain ⟨count, hpartition⟩ := (Cursor.ofString source).exists_partition
    cases htoken
    refine ⟨rfl, Cursor.after_source _ _, ?_⟩
    rw [← p.token_ofString]
    exact hpartition.pos p.index

/-- The levels that the parser asks for are as many as the tokens that are left. -/
theorem left_le (h : StandsAt s p) : p.left ≤ TokenSource.size s := by
  -- There are no more tokens behind a cursor than characters, and the end of the file.
  have hcursor : ∀ k, (lex source).length - k ≤
      ((Cursor.ofString source).after k).rest.length + 1 := by
    intro k
    by_cases hk : k < (lex source).length
    · obtain ⟨w, hw, hle, -⟩ := ((Cursor.ofString source).after k).tokens_eq_append
      have hlength := congrArg List.length hw
      rw [Cursor.tokens_after hk, List.length_drop, List.length_append,
        List.length_singleton] at hlength
      omega
    · omega
  unfold Position.left
  cases h with
  | behind =>
    have hle := hcursor p.index
    show _ ≤ ((Cursor.ofString source).after p.index).rest.length + 1
    omega
  | ahead =>
    have hle := hcursor (p.index + 1)
    show _ ≤ ((Cursor.ofString source).after (p.index + 1)).rest.length + 1
    omega

end StandsAt

/-- A parser and its place in the text give the same tokens. -/
theorem sameTokens_standsAt (source : String) :
    Parser.SameTokens (@StandsAt source) StandsAt where
  narrower _ _ h := h
  peek _ _ h := ⟨h.peek_fst, h.peek⟩
  advance_peek s _ _ := s.advance_peek
  advance s _ h := ⟨(advance_fst s).trans h.peek_fst, h.advance⟩
  consume _ _ h _ := h.advance

/-- A parser is at a place, with fewer tokens left than so many. -/
def Near (n : Nat) (s : Lookahead) (p : Position source) : Prop :=
  StandsAt s p ∧ p.left < n

/-- Behind each token but the last there is one less left. -/
theorem sameTokens_near {n m : Nat} (hnm : n ≤ m) (hmn : m ≤ n + 1) :
    Parser.SameTokens (@Near source m) (Near n) where
  narrower _ _ h := ⟨h.1, Nat.lt_of_lt_of_le h.2 hnm⟩
  peek _ _ h := ⟨h.1.peek_fst, h.1.peek, h.2⟩
  advance_peek s _ _ := s.advance_peek
  advance s p h :=
    ⟨(advance_fst s).trans h.1.peek_fst, h.1.advance, Nat.lt_of_le_of_lt p.left_next_le h.2⟩
  consume s p h hkind := by
    have htoken : (TokenSource.advance s).1 = p.token := (advance_fst s).trans h.1.peek_fst
    have hless := p.left_next_lt (htoken ▸ hkind)
    have hleft := h.2
    refine ⟨h.1.advance, ?_⟩
    show p.next.left < n
    omega

/-- A parser reads a production as its place does. -/
theorem read_simulates (production : Parser.Production) :
    Parser.Simulates (@StandsAt source) StandsAt
      (Parser.read production : Parser Lookahead SyntaxTree)
      (Parser.read production : Parser (Position source) SyntaxTree) := by
  intro s p h
  -- The numbers of levels differ, but neither is below that of the tokens that are left.
  have hsize : p.left ≤ TokenSource.size p := Nat.sub_le_sub_right (Nat.sub_le _ _) _
  have hagrees := Parser.read_agrees (fun _ _ => sameTokens_near)
    (fun _ _ h => Nat.not_lt_zero _ h.2) ⟨h, Nat.lt_succ_self _⟩ h.left_le hsize production
  generalize Parser.read production s = x at hagrees ⊢
  generalize Parser.read production p = y at hagrees ⊢
  cases hagrees with
  | ok t h => exact .ok t h.1
  | error e h => exact .error e h.1

end Lookahead

end LineCalc
