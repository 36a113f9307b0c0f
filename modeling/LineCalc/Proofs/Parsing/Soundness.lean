import LineCalc.Parser.Pool
import LineCalc.Proofs.Parsing.Places

/-!
# What is read is derived

A parser that returns a tree has consumed tokens that derive it. This holds at every place that a
parser can get to, by steps of its own and by commits to clones of it (`Reachable`), and so after
any attempts that were made there.

The derivations of `Reads` are derivations of the grammar that say more about signs. At every place
that can be reached the parser tracks a list of tokens of its text, and on lists the rules succeed
only with what `Reads` derives.
-/

namespace LineCalc

open LineCalc.Parser (Production Step)

/-! ## Reading and deriving -/

/-- A token that is no number stands for its characters. -/
theorem Atom.ofToken_of_ne {token : Token} (h : token.kind ≠ .number) :
    Atom.ofToken token = .identifier token.lexeme := by
  unfold Atom.ofToken
  rw [if_neg h]

/-- The call of an operator calls its characters. -/
theorem map_ofToken_operator {operator : Token} (h : operator.kind ≠ .number)
    (operands : List SyntaxTree) :
    Tree.map Atom.ofToken (.call (.leaf operator) operands) =
      .call (.leaf (.identifier operator.lexeme)) (operands.map (Tree.map Atom.ofToken)) := by
  rw [← Atom.ofToken_of_ne h, ← Tree.mapList_eq_map]
  rfl

mutual

/-- What the parser reads is derived by the grammar. -/
theorem ReadsWith.derives {skips : List Token → List Token → Prop} :
    ∀ {p : Production} {ts after : List Token} {t : SyntaxTree}, ReadsWith skips p ts after t →
      Derives p ts (t.map Atom.ofToken)
  | _, _, _, _, @ReadsWith.leaf _ token _ h => by
    show Derives .atom [token] (.leaf (Atom.ofToken token))
    by_cases hnumber : token.kind = .number
    · unfold Atom.ofToken
      rw [if_pos hnumber]
      exact .number hnumber
    · rw [Atom.ofToken_of_ne hnumber]
      exact .name (h.resolve_left hnumber)
  | _, _, _, _, .group ho h hc => .group ho h.derives hc
  | _, _, _, _, .call h ho hus hc => .call h.derives ho hus.derives hc
  | _, _, _, _, .primary h => .primary h.derives
  | _, _, _, _, .power h hcaret hus => by
    rw [map_ofToken_operator (by simp [hcaret])]
    exact .power h.derives hcaret hus.derives
  | _, _, _, _, .factor h _ => .factor h.derives
  | _, _, _, _, .signed hsign h _ => by
    rw [map_ofToken_operator fun hnumber => by simp [hnumber, TokenKind.isSign] at hsign]
    exact .signed hsign h.derives
  | _, _, _, _, .term h => .term h.derives
  | _, _, _, _, .product h ho hus => by
    rw [map_ofToken_operator fun hnumber => by simp [hnumber, TokenKind.joinsFactors] at ho]
    exact .product h.derives ho hus.derives
  | _, _, _, _, .expression h => .expression h.derives
  | _, _, _, _, .sum h ho hus => by
    rw [map_ofToken_operator fun hnumber => by simp [hnumber, TokenKind.isSign] at ho]
    exact .sum h.derives ho hus.derives
  | _, _, _, _, .complete h => .complete h.derives

/-- The arguments that the parser reads are derived by the grammar. -/
theorem ReadsArguments.derives {skips : List Token → List Token → Prop} :
    ∀ {ts after : List Token} {trees : List SyntaxTree}, ReadsArguments skips ts after trees →
      DerivesArguments ts (Tree.mapList Atom.ofToken trees)
  | _, _, _, .none => .none
  | _, _, _, .some h hus => .some h.derives hus.derives

/-- The arguments after the first that the parser reads are derived by the grammar. -/
theorem ReadsMore.derives {skips : List Token → List Token → Prop} :
    ∀ {ts after : List Token} {trees : List SyntaxTree}, ReadsMore skips ts after trees →
      DerivesMore ts (Tree.mapList Atom.ofToken trees)
  | _, _, _, .nil => .nil
  | _, _, _, .cons hcomma h hus => .cons hcomma h.derives hus.derives

end

/-! ## Places that can be reached -/

/-- The parsers that there can be on a text, after steps that any of them take in any order. -/
inductive Reachable (source : String) : List Lookahead → Prop
  | start : Reachable source [Lookahead.ofString source]
  | step {parsers : List Lookahead} {on : Nat} {s : Lookahead} (h : Reachable source parsers)
    (hon : parsers[on]? = some s) (step : Step) : Reachable source (step.run on s parsers).2

section

variable {last : Token} {all : List Token} (hlast : last.kind = .endOfFile)
  (hall : ∀ token ∈ all, token.kind ≠ .endOfFile)

/-- A parser tracks some list. -/
def OnTrack (last : Token) (all : List Token) (s : Lookahead) : Prop :=
  ∃ w, s.Tracks last all w

/-- A computation that a computation on lists simulates ends on track if it starts there. -/
theorem OnTrack.reply {α : Type} {p : Parser Lookahead α} {q : Parser (Words last) α}
    {s : Lookahead} (f : α → Parser.Reply) {w : Words last}
    (h : Parser.Agrees (Lookahead.Tracks last all) (p s) (q w)) :
    OnTrack last all (Parser.reply p f s).2 := by
  unfold Parser.reply
  generalize p s = x at h ⊢
  generalize q w = y at h
  cases h with
  | ok a h => exact ⟨_, h⟩
  | error e h => exact ⟨_, h⟩

include hlast hall

/-- A step of a parser keeps all of them on track. -/
theorem onTrack_run {parsers : List Lookahead} (h : ∀ s ∈ parsers, OnTrack last all s) {on : Nat}
    {s : Lookahead} (hon : parsers[on]? = some s) (step : Step) :
    ∀ s' ∈ (step.run on s parsers).2, OnTrack last all s' := by
  have hsame := Lookahead.sameTokens_tracks hlast hall
  obtain ⟨w, hw⟩ := h s (List.mem_of_getElem? hon)
  -- A parser is put at another place, and that is on track.
  have hset : ∀ place, OnTrack last all place → ∀ s' ∈ parsers.set on place,
      OnTrack last all s' := by
    intro place hplace s' hs'
    rcases List.mem_or_eq_of_mem_set hs' with hs' | rfl
    · exact h s' hs'
    · exact hplace
  cases step with
  | peek => exact hset _ (.reply .token (Parser.Simulates.peek hsame s w hw))
  | advance => exact hset _ (.reply .token (Parser.Simulates.advance hsame s w hw))
  | expect kind => exact hset _ (.reply .token (Parser.Simulates.expect hsame kind s w hw))
  | clone =>
    -- The clone is at the place of the parser that it is made from.
    intro s' hs'
    rcases List.mem_append.mp hs' with hs' | hs'
    · exact h s' hs'
    · obtain rfl := List.mem_singleton.mp hs'
      exact ⟨w, hw⟩
  | commit source =>
    -- A parser goes to the place of another one, or stays where it is if there is none.
    refine hset _ ?_
    unfold List.getD
    cases hsource : parsers[source]? with
    | none => exact ⟨w, hw⟩
    | some place => exact h place (List.mem_of_getElem? hsource)
  | read production => exact hset _ (.reply .tree (hw.read_agrees hlast hall production))

end

/-- Every place that can be reached is on track. -/
theorem Reachable.onTrack {source : String} {all : List Token}
    (hlex : lex source = all ++ [Cursor.endToken source.toList])
    (hall : ∀ token ∈ all, token.kind ≠ .endOfFile) {parsers : List Lookahead}
    (h : Reachable source parsers) :
    ∀ s ∈ parsers, OnTrack (Cursor.endToken source.toList) all s := by
  induction h with
  | start =>
    intro s hs
    obtain rfl := List.mem_singleton.mp hs
    exact ⟨_, Lookahead.tracks_ofString hlex⟩
  | step _ hon step ih => exact onTrack_run rfl hall ih hon step

/-- At every place that can be reached, a parser that returns a tree has moved over tokens of its
text that are not none and not its end, and these derive the tree. If a whole text is parsed, all
of its tokens do. -/
theorem read_sound (source : String) :
    (∀ parsers, Reachable source parsers → ∀ s ∈ parsers, ∀ p t s', Parser.read p s = .ok t s' →
      ∃ before ts after, lex source = before ++ ts ++ after ∧ s.tokens = ts ++ after ∧
        s'.tokens = after ∧ ts ≠ [] ∧ (∀ token ∈ ts, token.kind ≠ .endOfFile) ∧
        Derives p ts (t.map Atom.ofToken)) ∧
    ∀ e, parse source = .ok e → ∃ ts, lex source = ts ++ [Cursor.endToken source.toList] ∧
      (∀ token ∈ ts, token.kind ≠ .endOfFile) ∧ Derives .expression ts e := by
  obtain ⟨all, hlex, hall⟩ := lex_eq_append source
  constructor
  · intro parsers hparsers s hs p t s' hread
    obtain ⟨w, hw⟩ := hparsers.onTrack hlex hall s hs
    obtain ⟨ts, rest, hts, htracks, hreads⟩ := hw.read_eq_ok rfl hall hread
    -- What the parser has come past before it reads.
    obtain ⟨before, hbefore⟩ := hw.suffix
    refine ⟨before, ts, rest ++ [Cursor.endToken source.toList], ?_, ?_, htracks.tokens,
      hreads.ne_nil, ?_, hreads.derives⟩
    · rw [hlex, ← hbefore, hts]
      simp
    · rw [hw.tokens, hts, List.append_assoc]
    · intro token htoken
      exact hall token (hw.suffix.subset (by rw [hts]; exact List.mem_append_left _ htoken))
  · intro e he
    obtain ⟨t, hreads, rfl⟩ := (parse_eq_ok_iff hlex hall e).mp he
    exact ⟨all, hlex, hall, hreads.derives⟩

set_option maxRecDepth 4000 in
/-- A sign that is an operand: it is multiplied, and the tokens of the product are all there are. -/
theorem read_sound_sign_times_three :
    let three : Token := ⟨.number, "3", 4⟩
    let product : SyntaxTree := .call (.leaf ⟨.star, "*", 2⟩) [.leaf ⟨.minus, "-", 0⟩, .leaf three]
    (∃ before ts after, lex "- * 3" = before ++ ts ++ after ∧
      (Lookahead.ofString "- * 3").tokens = ts ++ after ∧
      (Lookahead.mk ⟨"- * 3".toList, 5⟩ (some ⟨.endOfFile, "", 5⟩)).tokens = after ∧ ts ≠ [] ∧
      (∀ token ∈ ts, token.kind ≠ .endOfFile) ∧
      Derives .expression ts (product.map Atom.ofToken)) ∧
    ∃ ts, lex "- * 3" = ts ++ [Cursor.endToken "- * 3".toList] ∧
      (∀ token ∈ ts, token.kind ≠ .endOfFile) ∧
      Derives .expression ts (product.map Atom.ofToken) := by
  intro three product
  have hread : Parser.read .expression (Lookahead.ofString "- * 3") =
      .ok product ⟨⟨"- * 3".toList, 5⟩, some ⟨.endOfFile, "", 5⟩⟩ := by rfl
  have hparse : parse "- * 3" = .ok (product.map Atom.ofToken) := by rfl
  exact ⟨(read_sound "- * 3").1 _ .start _ (List.mem_singleton_self _) .expression _ _ hread,
    (read_sound "- * 3").2 _ hparse⟩

end LineCalc
