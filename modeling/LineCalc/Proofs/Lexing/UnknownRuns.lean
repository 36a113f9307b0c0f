import LineCalc.Proofs.Lexing.Characters

/-!
# Where runs of unknown characters stop

A run of unknown characters is to stop at a blank or where another token starts, and `endsUnknown`
is asked for that at every character. It repeats the case distinction of `scan`, and agrees with it
on every character but the underscore (`endsUnknown_iff`): a name starts with an underscore too, but
only a letter ends a run. What this means for the tokens of a text is `unknown_stops`. Inside of an
unknown token a cursor that is put there reads another token exactly at the underscores.
-/

namespace LineCalc

/-! ## Ends of runs and starts of tokens -/

/-- A token is unknown exactly where neither a literal nor a name nor a symbol starts. -/
theorem scan_kind_eq_unknown_iff (c : Char) (cs : List Char) : (scan c cs).1 = .unknown ↔
    Literal.starts (c :: cs) = false ∧ (Text.isLetter c || c == '_') = false ∧ isSymbol c = false := by
  unfold scan
  split
  · next hstarts => simp [hstarts]
  · next hstarts =>
    split
    · next hname => simp [hname]
    · next hname =>
      split
      · next kind hsymbol =>
        have hshown := TokenKind.showsLexeme_of_ofSymbol? hsymbol
        have hkind : kind ≠ .unknown := by
          rintro rfl
          cases hshown
        simp [hkind, isSymbol, hsymbol]
      · next hsymbol => simp_all [isSymbol]

/-- A run of unknown characters is ended by a blank and by every start of another token, underscores
apart. -/
theorem endsUnknown_iff (c : Char) (cs : List Char) : endsUnknown c cs = true ↔
    c ≠ '_' ∧ (Text.isBlank c = true ∨ (scan c cs).1 ≠ .unknown) := by
  by_cases hunderscore : c = '_'
  · subst hunderscore
    have hletter : Text.isLetter '_' = false := by decide +kernel
    have hblank : Text.isBlank '_' = false := by decide +kernel
    simp [endsUnknown, Literal.starts, isSymbol, TokenKind.ofSymbol?, hletter, hblank]
  · rw [Ne, Ne, scan_kind_eq_unknown_iff]
    simp only [endsUnknown, beq_eq_false_iff_ne.mpr hunderscore]
    cases Text.isBlank c <;> cases Literal.starts (c :: cs) <;> cases Text.isLetter c <;>
      cases isSymbol c <;> simp [hunderscore]

/-- At a place of a text there starts a token that is not unknown: a cursor that is put there reads
it, and passes over nothing before it. -/
def StartsKnown (source : List Char) (q : Nat) : Prop :=
  (Cursor.mk source q).next.1.offset = q ∧ (Cursor.mk source q).next.1.kind ≠ .unknown

section

variable {source : List Char} {q : Nat} {c : Char} (hc : source[q]? = some c)
include hc

/-- What a cursor at a character has before it. -/
theorem rest_of_getElem? : (Cursor.mk source q).rest = c :: source.drop (q + 1) := by
  obtain ⟨hq, rfl⟩ := List.getElem?_eq_some_iff.mp hc
  exact List.drop_eq_getElem_cons hq

/-- At a character that is not blank the token is the one that is scanned there, and at a blank no
token starts. -/
theorem startsKnown_iff : StartsKnown source q ↔
    Text.isBlank c = false ∧ (scan c (source.drop (q + 1))).1 ≠ .unknown := by
  have hrest := rest_of_getElem? hc
  unfold StartsKnown
  cases hblank : Text.isBlank c with
  | false =>
    have hdrop : (Cursor.mk source q).rest.dropWhile Text.isBlank = c :: source.drop (q + 1) := by
      rw [hrest, List.dropWhile_cons, hblank]
      rfl
    have htake : (Cursor.mk source q).rest.takeWhile Text.isBlank = [] := by
      rw [hrest, List.takeWhile_cons, hblank]
      rfl
    rw [Cursor.next_of_cons hdrop, htake]
    simp
  | true =>
    -- The cursor passes over the blank at least, and there is a character.
    refine ⟨fun hstarts => absurd hstarts.1 ?_, fun h => absurd h.1 (by simp)⟩
    cases hdrop : (Cursor.mk source q).rest.dropWhile Text.isBlank with
    | nil =>
      have hq := (List.getElem?_eq_some_iff.mp hc).1
      rw [Cursor.next_of_blank hdrop]
      exact Nat.ne_of_gt hq
    | cons d ds =>
      rw [Cursor.next_of_cons hdrop, hrest, List.takeWhile_cons, hblank, if_pos rfl]
      simp

/-- A run of unknown characters is ended at a place exactly if there is a blank or the start of
another token, and no underscore. -/
theorem endsUnknown_iff_startsKnown : endsUnknown c (source.drop (q + 1)) = true ↔
    c ≠ '_' ∧ (Text.isBlank c = true ∨ StartsKnown source q) := by
  rw [endsUnknown_iff, startsKnown_iff hc]
  cases Text.isBlank c <;> simp

end

/-- An underscore starts a name. -/
theorem startsKnown_underscore {source : List Char} {q : Nat} (hc : source[q]? = some '_') :
    StartsKnown source q := by
  rw [startsKnown_iff hc, Ne, scan_kind_eq_unknown_iff]
  exact ⟨by decide +kernel, by simp⟩

/-! ## Unknown tokens -/

/-- Behind its first character an unknown token is a run of unknown characters. -/
theorem TokenAt.unknownRun_eq {source before cs after : List Char} {token : Token} {c : Char}
    (h : TokenAt source token before c cs after) (hkind : token.kind = .unknown) :
    unknownRun (cs ++ after) = cs := by
  have hscan := h.scan
  rw [hkind] at hscan
  obtain ⟨hstarts, hname, hsymbol⟩ :=
    (scan_kind_eq_unknown_iff c (cs ++ after)).mp (congrArg Prod.fst hscan)
  have hnone : TokenKind.ofSymbol? c = none := by simpa [isSymbol] using hsymbol
  simp only [LineCalc.scan, hstarts, hname, hnone, Bool.false_eq_true, if_false] at hscan
  exact (List.cons.inj (Prod.mk.inj hscan).2).2

/-- Behind its first character an unknown token holds no end of a run, and there is one where it
stops, or the text stops there. -/
theorem TokenAt.endsUnknown {source before cs after : List Char} {token : Token} {c : Char}
    (h : TokenAt source token before c cs after) (hkind : token.kind = .unknown) :
    (∀ q d, token.offset < q → q < token.stop → source[q]? = some d →
        LineCalc.endsUnknown d (source.drop (q + 1)) = false) ∧
      ∀ d, source[token.stop]? = some d →
        LineCalc.endsUnknown d (source.drop (token.stop + 1)) = true := by
  -- From the second character of the token on, places of the text are places of the run.
  have hrest : source.drop (token.offset + 1) = cs ++ after := by
    rw [h.source, ← h.offset, List.drop_length_add_append]
    rfl
  have hget : ∀ i, source[token.offset + 1 + i]? = (cs ++ after)[i]? := fun i => by
    rw [← hrest, List.getElem?_drop]
  have hdrop : ∀ i, source.drop (token.offset + 1 + i + 1) = (cs ++ after).drop (i + 1) := fun i => by
    rw [← hrest, List.drop_drop, Nat.add_assoc]
  have hstop : token.stop = token.offset + 1 + cs.length := by
    have hchars := h.stop_eq
    have hoffset := h.offset
    omega
  obtain ⟨hinside, hend⟩ := unknownRun_stops (cs ++ after)
  rw [h.unknownRun_eq hkind] at hinside hend
  constructor
  · intro q d hstart hlt hd
    obtain ⟨i, rfl⟩ := Nat.exists_eq_add_of_le hstart
    rw [hget] at hd
    rw [hdrop]
    exact hinside i (by omega) d hd
  · intro d hd
    rw [hstop, hget] at hd
    rw [hstop, hdrop]
    exact hend d hd

/-- Where a run of unknown characters is ended there is a blank or the start of a token that is not
unknown, and it is ended at each of these but the underscores, which start names. So an unknown token
reaches up to such a place or to the end of the text, and inside of it such tokens start exactly at
the underscores. -/
theorem unknown_stops (source : String) :
    (∀ q c, source.toList[q]? = some c →
      (endsUnknown c (source.toList.drop (q + 1)) = true ↔
        c ≠ '_' ∧ (Text.isBlank c = true ∨ StartsKnown source.toList q)) ∧
      (c = '_' → StartsKnown source.toList q)) ∧
    ∀ token ∈ lex source, token.kind = .unknown →
      (∀ q, token.offset < q → q < token.stop →
        (StartsKnown source.toList q ↔ source.toList[q]? = some '_')) ∧
      (token.stop = source.toList.length ∨ ∃ c, source.toList[token.stop]? = some c ∧ c ≠ '_' ∧
        (Text.isBlank c = true ∨ StartsKnown source.toList token.stop)) := by
  constructor
  · intro q c hc
    exact ⟨endsUnknown_iff_startsKnown hc, fun h => startsKnown_underscore (h ▸ hc)⟩
  · intro token htoken hkind
    have hpiece := Cursor.isPiece_of_mem htoken (by simp [hkind])
    have hstop : token.stop ≤ source.toList.length := hpiece.stop_le
    obtain ⟨before, c, cs, after, h⟩ :=
      (Cursor.ofString source).exists_tokenAt token htoken (by simp [hkind])
    obtain ⟨hinside, hend⟩ := h.endsUnknown hkind
    refine ⟨fun q hstart hlt => ⟨fun hstarts => ?_, startsKnown_underscore⟩, ?_⟩
    · have hget := List.getElem?_eq_getElem (Nat.lt_of_lt_of_le hlt hstop)
      by_cases hunderscore : source.toList[q] = '_'
      · rw [hget, hunderscore]
      · have hends := (endsUnknown_iff_startsKnown hget).mpr ⟨hunderscore, .inr hstarts⟩
        exact absurd hends (Bool.eq_false_iff.mp (hinside q _ hstart hlt hget))
    · rcases Nat.lt_or_ge token.stop source.toList.length with hlt | hge
      · have hget := List.getElem?_eq_getElem hlt
        exact .inr ⟨_, hget, (endsUnknown_iff_startsKnown hget).mp (hend _ hget)⟩
      · exact .inl (Nat.le_antisymm hstop hge)

set_option maxRecDepth 4000 in
/-- Inside of an unknown token only the underscore starts another one, and behind it a number does. -/
theorem unknown_stops_before_point :
    lex "#_$.5" = [⟨.unknown, "#_$", 0⟩, ⟨.number, ".5", 3⟩, ⟨.endOfFile, "", 5⟩] ∧
      StartsKnown "#_$.5".toList 1 ∧ ¬StartsKnown "#_$.5".toList 2 ∧
      StartsKnown "#_$.5".toList 3 := by
  have hlex : lex "#_$.5" = [⟨.unknown, "#_$", 0⟩, ⟨.number, ".5", 3⟩, ⟨.endOfFile, "", 5⟩] := by
    rfl
  obtain ⟨hplaces, htokens⟩ := unknown_stops "#_$.5"
  obtain ⟨hinside, -⟩ := htokens ⟨.unknown, "#_$", 0⟩ (by simp [hlex]) rfl
  have hpoint : "#_$.5".toList[3]? = some '.' := by decide
  obtain ⟨-, hstarts⟩ := (hplaces 3 '.' hpoint).1.mp (by rfl)
  have hblank : Text.isBlank '.' = false := by decide
  refine ⟨hlex, (hinside 1 (by decide) (by decide)).mpr (by decide), fun h => ?_, ?_⟩
  · exact absurd ((hinside 2 (by decide) (by decide)).mp h) (by decide)
  · exact hstarts.resolve_left (by simp [hblank])

set_option maxRecDepth 4000 in
/-- A run of unknown characters covers the underscore that a name starts with, and only the rest of
the name is a token. A cursor that is put at the underscore reads the whole name. -/
theorem unknown_covers_underscore :
    lex "#_a" = [⟨.unknown, "#_", 0⟩, ⟨.identifier, "a", 2⟩, ⟨.endOfFile, "", 3⟩] ∧
      (Cursor.mk "#_a".toList 1).next.1 = ⟨.identifier, "_a", 1⟩ ∧
      StartsKnown "#_a".toList 1 ∧ endsUnknown '_' ("#_a".toList.drop 2) = false := by
  have hname : (Cursor.mk "#_a".toList 1).next.1 = ⟨.identifier, "_a", 1⟩ := by rfl
  refine ⟨by rfl, hname, ?_, by rfl⟩
  unfold StartsKnown
  rw [hname]
  exact ⟨rfl, by decide⟩

end LineCalc
