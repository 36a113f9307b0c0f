import LineCalc.Parser.Lookahead
import LineCalc.Proofs.Lexing.Stream
import LineCalc.Proofs.Parsing.Exactness

/-!
# Places in a text

A parser on a text is at a place of its tokens: the one in the buffer, if there is one, and those
after the cursor. A look at the next token moves the cursor and not the place. `Tracks` relates a
parser to the list of the tokens before the last one, and under this relation a parser does what
the rules do on the list (`read_agrees`).
-/

namespace LineCalc

open LineCalc.Parser (Production)

namespace Lookahead

/-- The tokens that are left, the last of them the end of the file. -/
def tokens (s : Lookahead) : List Token :=
  match s.buffer with
  | none => s.cursor.tokens
  | some token => if token.kind = .endOfFile then [token] else token :: s.cursor.tokens

/-- The next token is the first of those that are left. -/
theorem exists_tokens_eq (s : Lookahead) : ∃ v, s.tokens = s.peek.1 :: v := by
  unfold tokens peek
  cases s.buffer with
  | none =>
    show ∃ v, s.cursor.tokens = s.cursor.next.1 :: v
    rw [Cursor.tokens_eq]
    split
    · exact ⟨[], rfl⟩
    · exact ⟨_, rfl⟩
  | some token =>
    show ∃ v, (if token.kind = .endOfFile then [token] else token :: s.cursor.tokens) = token :: v
    split
    · exact ⟨[], rfl⟩
    · exact ⟨_, rfl⟩

/-- A look at the next token leaves the tokens as they are. -/
theorem tokens_peek (s : Lookahead) : s.peek.2.tokens = s.tokens := by
  obtain ⟨cursor, buffer⟩ := s
  cases buffer with
  | none => exact (Cursor.tokens_eq cursor).symm
  | some token => rfl

/-- The token that is consumed is the one that a look shows. -/
theorem advance_fst (s : Lookahead) : s.advance.1 = s.peek.1 := by
  obtain ⟨cursor, buffer⟩ := s
  cases buffer with
  | none => rfl
  | some token => rfl

/-- The token that is consumed after a look is the one that was shown. -/
theorem advance_peek (s : Lookahead) : s.peek.2.advance.1 = s.peek.1 := by
  obtain ⟨cursor, buffer⟩ := s
  cases buffer with
  | none => rfl
  | some token => rfl

/-- A parser is before the tokens of a list and a last token after them. The list is the end of
another one, from which the parser has come, and the last token may be in the buffer. -/
structure Tracks (last : Token) (all : List Token) (s : Lookahead) (w : Words last) : Prop where
  tokens : s.tokens = w.list ++ [last]
  buffered : ∀ token, s.buffer = some token → token.kind = .endOfFile → s.cursor.tokens = [last]
  suffix : w.list <:+ all

namespace Tracks

variable {last : Token} {all : List Token} {s : Lookahead} {w : Words last}

/-- The parser sees the next token of the list. -/
theorem peek_fst (h : Tracks last all s w) : s.peek.1 = w.list.headD last := by
  obtain ⟨v, hv⟩ := s.exists_tokens_eq
  have htokens := h.tokens
  rw [hv] at htokens
  cases hw : w.list with
  | nil =>
    rw [hw] at htokens
    exact (List.cons.inj htokens).1
  | cons token w =>
    rw [hw] at htokens
    exact (List.cons.inj htokens).1

/-- A look leaves the parser where it is. -/
theorem peek (h : Tracks last all s w) : Tracks last all s.peek.2 w := by
  refine ⟨s.tokens_peek.trans h.tokens, ?_, h.suffix⟩
  obtain ⟨cursor, buffer⟩ := s
  cases buffer with
  | none =>
    intro token hbuffer hend
    have hbuffer : some cursor.next.1 = some token := hbuffer
    obtain rfl := Option.some.inj hbuffer
    have hnext : cursor.tokens = [cursor.next.1] := by rw [Cursor.tokens_eq, if_pos hend]
    have hafter := Cursor.tokens_next_of_end hend
    have hblank := Cursor.tokens_of_blank ((Cursor.next_kind_eq_endOfFile_iff cursor).mp hend)
    -- The list has been used up, so the last token is the one that was read.
    have hlist : cursor.tokens = w.list ++ [last] := h.tokens
    have hlength := congrArg List.length hlist
    rw [hnext, List.length_append] at hlength
    have hempty : w.list = [] := List.eq_nil_of_length_eq_zero (by simpa using hlength)
    rw [hempty] at hlist
    exact (hafter.trans hblank.symm).trans hlist
  | some token => exact h.buffered

/-- A token that is consumed is gone from the list. -/
theorem advance (hlast : last.kind = .endOfFile) (hall : ∀ token ∈ all, token.kind ≠ .endOfFile)
    (h : Tracks last all s w) : Tracks last all s.advance.2 ⟨w.list.tail⟩ := by
  have hpeek := h.peek_fst
  obtain ⟨htokens, hbuffered, hsuffix⟩ := h
  refine ⟨?_, ?_, (List.tail_suffix _).trans hsuffix⟩
  · obtain ⟨cursor, buffer⟩ := s
    cases hw : w.list with
    | nil =>
      -- Only the last token is left. It is consumed and comes again.
      rw [hw] at htokens hpeek
      cases buffer with
      | none =>
        have hend : cursor.next.1.kind = .endOfFile := (congrArg Token.kind hpeek).trans hlast
        have hblank := Cursor.tokens_of_blank ((Cursor.next_kind_eq_endOfFile_iff cursor).mp hend)
        exact ((Cursor.tokens_next_of_end hend).trans hblank.symm).trans htokens
      | some token => exact hbuffered token rfl ((congrArg Token.kind hpeek).trans hlast)
    | cons token rest =>
      rw [hw] at htokens hpeek
      have hend : token.kind ≠ .endOfFile := hall token (hsuffix.subset (by simp [hw]))
      cases buffer with
      | none =>
        have hnext : cursor.next.1 = token := hpeek
        have hcursor : cursor.tokens = token :: rest ++ [last] := htokens
        rw [Cursor.tokens_eq, hnext, if_neg hend] at hcursor
        exact (List.cons.inj hcursor).2
      | some first =>
        obtain rfl : first = token := hpeek
        have hcursor : (if first.kind = .endOfFile then [first] else first :: cursor.tokens) =
          first :: rest ++ [last] := htokens
        rw [if_neg hend] at hcursor
        exact (List.cons.inj hcursor).2
  · obtain ⟨cursor, buffer⟩ := s
    intro token hbuffer
    cases buffer <;> cases hbuffer

/-- There are no more tokens than a parser expects. -/
theorem length_le (h : Tracks last all s w) : w.list.length ≤ TokenSource.size s := by
  have hlength := congrArg List.length h.tokens
  rw [List.length_append, List.length_singleton] at hlength
  obtain ⟨v, hv, hle, -⟩ := s.cursor.tokens_eq_append
  have hcursor : s.cursor.tokens.length ≤ s.cursor.rest.length + 1 := by
    rw [hv, List.length_append, List.length_singleton]
    omega
  -- The token in the buffer is one more than those behind the cursor.
  have htokens : s.tokens.length ≤ s.cursor.tokens.length + 1 := by
    unfold Lookahead.tokens
    split
    · omega
    · split
      · simp
      · simp
  show w.list.length ≤ s.cursor.rest.length + 1
  omega

end Tracks

/-- A parser and the list of its tokens give the same tokens. -/
theorem sameTokens_tracks {last : Token} {all : List Token} (hlast : last.kind = .endOfFile)
    (hall : ∀ token ∈ all, token.kind ≠ .endOfFile) :
    Parser.SameTokens (Tracks last all) (Tracks last all) where
  narrower _ _ h := h
  peek _ _ h := ⟨h.peek_fst, h.peek⟩
  advance_peek s _ _ := s.advance_peek
  advance s _ h := ⟨(advance_fst s).trans h.peek_fst, h.advance hlast hall⟩
  consume _ _ h _ := h.advance hlast hall

/-- At the start of a text a parser is before all of its tokens. -/
theorem tracks_ofString {source : String} {all : List Token}
    (h : lex source = all ++ [Cursor.endToken source.toList]) :
    Tracks (Cursor.endToken source.toList) all (ofString source) ⟨all⟩ where
  tokens := h
  buffered _ hbuffer := nomatch hbuffer
  suffix := List.suffix_refl all

end Lookahead

namespace Words

variable {last : Token} (hlast : last.kind = .endOfFile)
include hlast

/-- The rules without levels read a production as its rule does. -/
theorem readWith_rules (p : Production) :
    Parser.readWith (rules : Parser.Rules (Words last)) p = rule p := by
  have hnext := nextRules_rules hlast
  have hexpression : Parser.expression (rules : Parser.Rules (Words last)) = rules.expression :=
    congrArg Parser.Rules.expression hnext
  cases p with
  | atom => rfl
  | primary => rfl
  | factor => exact congrArg Parser.Rules.factor hnext
  | term => exact congrArg Parser.Rules.term hnext
  | expression => exact hexpression
  | complete =>
    unfold Parser.readWith rule
    rw [hexpression]

/-- On enough levels a production is read as its rule reads it. -/
theorem readWith_simulates_rule (n : Nat) (p : Production) :
    Parser.Simulates (Below (n + 1)) (Below (n + 1))
      (Parser.readWith (Parser.rules n : Parser.Rules (Words last)) p) (rule p) := by
  rw [← readWith_rules hlast]
  exact Parser.readWith_simulates (sameTokens_below hlast (by omega) (by omega))
    (sameTokens_below hlast (by omega) (by omega)) (rules_simulates hlast n) p

end Words

namespace Lookahead

variable {last : Token} {all : List Token} {s : Lookahead} {w : Words last}

/-- A parser reads a production as its rule does on the list of the tokens that are left. -/
theorem Tracks.read_agrees (hlast : last.kind = .endOfFile)
    (hall : ∀ token ∈ all, token.kind ≠ .endOfFile) (h : Tracks last all s w) (p : Production) :
    Parser.Agrees (Tracks last all) (Parser.read p s) (Words.rule p w) := by
  have hsame := sameTokens_tracks hlast hall
  -- From the text to the list, at as many levels as the text asks for, and then to any number.
  have hsource := Parser.readWith_simulates hsame hsame
    (Parser.rules_simulates hsame (TokenSource.size s)) p s w h
  have hlevels := Words.readWith_simulates_rule hlast (TokenSource.size s) p w w
    ⟨rfl, Nat.lt_succ_of_le h.length_le⟩
  rw [Parser.read_apply]
  generalize Parser.readWith (Parser.rules (TokenSource.size s)) p s = x at hsource ⊢
  generalize Parser.readWith (Parser.rules (TokenSource.size s)) p w = y at hsource hlevels
  generalize Words.rule p w = z at hlevels ⊢
  cases hsource with
  | ok t hsource =>
    cases hlevels with
    | ok _ hlevels => exact .ok t (hlevels.1 ▸ hsource)
  | error e hsource =>
    cases hlevels with
    | error _ hlevels => exact .error e (hlevels.1 ▸ hsource)

/-- A parser that returns a tree has consumed tokens that read as it. -/
theorem Tracks.read_eq_ok {s' : Lookahead} (hlast : last.kind = .endOfFile)
    (hall : ∀ token ∈ all, token.kind ≠ .endOfFile) (h : Tracks last all s w) {p : Production}
    {t : SyntaxTree} (hread : Parser.read p s = .ok t s') :
    ∃ ts rest, w.list = ts ++ rest ∧ Tracks last all s' ⟨rest⟩ ∧ Reads p ts rest t := by
  have hagrees := h.read_agrees hlast hall p
  rw [hread] at hagrees
  generalize hrule : Words.rule p w = result at hagrees
  cases hagrees with
  | ok _ htracks =>
    have hw : ∀ token ∈ w.list, token.kind ≠ .endOfFile := fun token htoken =>
      hall token (h.suffix.subset htoken)
    obtain ⟨ts, hts, -, hreads⟩ := (Words.rule_eq_ok_iff hlast hw p t).mp hrule
    exact ⟨ts, _, hts, htracks, hreads⟩

/-- A parser before tokens that read as a tree, and then others with which the production does not
go on, returns the tree. -/
theorem Tracks.read_of_reads (hlast : last.kind = .endOfFile)
    (hall : ∀ token ∈ all, token.kind ≠ .endOfFile) {ts rest : List Token}
    (h : Tracks last all s ⟨ts ++ rest⟩) {p : Production} {t : SyntaxTree}
    (hreads : Reads p ts rest t) (hend : Words.Ends p rest) :
    ∃ s', Parser.read p s = .ok t s' := by
  have hagrees := h.read_agrees hlast hall p
  have hw : ∀ token ∈ ts ++ rest, token.kind ≠ .endOfFile := fun token htoken =>
    hall token (h.suffix.subset htoken)
  rw [(Words.rule_eq_ok_iff hlast hw p t).mpr ⟨ts, rfl, hend, hreads⟩] at hagrees
  generalize Parser.read p s = result at hagrees ⊢
  cases hagrees with
  | ok _ htracks => exact ⟨_, rfl⟩

end Lookahead

/-! ## Whole texts -/

/-- The rule for complete expressions reads what an expression reads that takes all tokens. -/
theorem reads_complete_iff {ts after : List Token} {t : SyntaxTree} :
    Reads .complete ts after t ↔ after = [] ∧ Reads .expression ts after t := by
  constructor
  · rintro ⟨⟩
    next h => exact ⟨rfl, h⟩
  · rintro ⟨rfl, h⟩
    exact .complete h

/-- A text is parsed exactly to what its tokens before the last one read as. -/
theorem parse_eq_ok_iff {source : String} {all : List Token}
    (hlex : lex source = all ++ [Cursor.endToken source.toList])
    (hall : ∀ token ∈ all, token.kind ≠ .endOfFile) (e : Expr) :
    parse source = .ok e ↔ ∃ t, Reads .expression all [] t ∧ t.map Atom.ofToken = e := by
  have htracks := Lookahead.tracks_ofString hlex
  have hparse : parse source = .ok e ↔
      ∃ t, (∃ s, Parser.read .complete (Lookahead.ofString source) = .ok t s) ∧
        t.map Atom.ofToken = e := by
    unfold parse parseTokens
    cases Parser.read .complete (Lookahead.ofString source) with
    | ok t s => simp [Except.map]
    | error error s => simp [Except.map]
  have hread : ∀ t, (∃ s, Parser.read .complete (Lookahead.ofString source) = .ok t s) ↔
      Reads .expression all [] t := by
    intro t
    constructor
    · rintro ⟨s, hs⟩
      obtain ⟨ts, rest, hts, -, hreads⟩ := htracks.read_eq_ok rfl hall hs
      obtain ⟨rfl, hreads⟩ := reads_complete_iff.mp hreads
      -- Nothing is left behind a complete expression, so it takes all tokens.
      obtain rfl : all = ts := by simpa using hts
      exact hreads
    · intro hreads
      have hcomplete := reads_complete_iff.mpr ⟨rfl, hreads⟩
      rw [← List.append_nil all] at htracks
      exact htracks.read_of_reads rfl (by simpa using hall) hcomplete rfl
  rw [hparse]
  simp only [hread]

end LineCalc
