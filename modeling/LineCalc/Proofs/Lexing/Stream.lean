import LineCalc.Token.Cursor

/-!
# The tokens of a text

What a cursor reads step by step. Blanks are passed over, and the token behind them is scanned from
the characters that are left, of which it takes some. So the tokens of a text end, with one
`endOfFile` after those that are none (`tokens_eq_append`), and the bound on their number in
`tokens` is large enough (`tokens_eq`).
-/

namespace LineCalc

/-- A token that starts at a character is not the end of the file. -/
theorem scan_ne_endOfFile (c : Char) (cs : List Char) : (scan c cs).1 ≠ .endOfFile := by
  unfold scan
  split
  · simp
  · split
    · simp
    · split
      · next kind hkind =>
        unfold TokenKind.ofSymbol? at hkind
        split at hkind <;> cases hkind <;> simp
      · simp

namespace Cursor

/-- The token at the end of a text. -/
def endToken (source : List Char) : Token :=
  ⟨.endOfFile, "", source.length⟩

/-! ## One step -/

/-- When nothing but blanks is left, the file ends. -/
theorem next_of_blank {cursor : Cursor} (h : cursor.rest.dropWhile Text.isBlank = []) :
    cursor.next = (endToken cursor.source, cursor.atEnd) := by
  unfold next
  rw [h]
  rfl

/-- The character after the blanks starts a token, which has a kind and some characters. -/
theorem next_of_cons {cursor : Cursor} {c : Char} {cs : List Char}
    (h : cursor.rest.dropWhile Text.isBlank = c :: cs) :
    cursor.next =
      (⟨(scan c cs).1, String.ofList (scan c cs).2,
        cursor.pos + (cursor.rest.takeWhile Text.isBlank).length⟩,
      { cursor with
        pos := cursor.pos + (cursor.rest.takeWhile Text.isBlank).length +
          (scan c cs).2.length }) := by
  unfold next
  rw [h]

/-- A step stays in the same text. -/
theorem next_source (cursor : Cursor) : cursor.next.2.source = cursor.source := by
  cases h : cursor.rest.dropWhile Text.isBlank with
  | nil => rw [next_of_blank h]; rfl
  | cons c cs => rw [next_of_cons h]

/-- The file ends exactly when nothing but blanks is left. -/
theorem next_kind_eq_endOfFile_iff (cursor : Cursor) :
    cursor.next.1.kind = .endOfFile ↔ cursor.rest.dropWhile Text.isBlank = [] := by
  cases h : cursor.rest.dropWhile Text.isBlank with
  | nil => simp [next_of_blank h, endToken]
  | cons c cs => simp [next_of_cons h, scan_ne_endOfFile]

/-- A token takes its characters away. -/
theorem rest_next {cursor : Cursor} {c : Char} {cs : List Char}
    (h : cursor.rest.dropWhile Text.isBlank = c :: cs) :
    cursor.next.2.rest = (c :: cs).drop (scan c cs).2.length := by
  have hrest := List.takeWhile_append_dropWhile (p := Text.isBlank) (l := cursor.rest)
  rw [next_of_cons h, ← h]
  -- The blanks are dropped first, and then the characters of the token.
  unfold rest
  rw [← List.drop_drop, ← List.drop_drop]
  congr 1
  show cursor.rest.drop _ = _
  conv => lhs; rw [← hrest]
  exact List.drop_left

/-- A token leaves fewer characters than there were. -/
theorem length_rest_next {cursor : Cursor} (h : cursor.next.1.kind ≠ .endOfFile) :
    cursor.next.2.rest.length < cursor.rest.length := by
  rw [Ne, next_kind_eq_endOfFile_iff] at h
  obtain ⟨c, cs, hcs⟩ := List.exists_cons_of_ne_nil h
  have hscan := List.length_pos_iff.mpr (scan_ne_nil c cs)
  have hdrop : (c :: cs).length ≤ cursor.rest.length := by
    rw [← hcs]
    exact (List.dropWhile_sublist _).length_le
  rw [rest_next hcs, List.length_drop]
  simp only [List.length_cons] at hdrop ⊢
  omega

/-- At the end of a text there is nothing left. -/
theorem rest_atEnd (cursor : Cursor) : cursor.atEnd.rest = [] := by
  unfold rest atEnd
  exact List.drop_length

/-! ## All steps -/

/-- What holds at the end of a text, and before a token if it holds behind it, holds everywhere. -/
@[elab_as_elim]
theorem induction {P : Cursor → Prop}
    (atEnd : ∀ cursor : Cursor, cursor.next.1.kind = .endOfFile → P cursor)
    (step : ∀ cursor : Cursor, cursor.next.1.kind ≠ .endOfFile → P cursor.next.2 → P cursor)
    (cursor : Cursor) : P cursor := by
  induction hn : cursor.rest.length using Nat.strongRecOn generalizing cursor with
  | ind n ih =>
    by_cases hend : cursor.next.1.kind = .endOfFile
    · exact atEnd cursor hend
    · exact step cursor hend (ih _ (hn ▸ length_rest_next hend) _ rfl)

/-- A bound on the number of tokens that exceeds the number of characters makes no difference. -/
theorem tokensUpTo_eq {n m : Nat} {cursor : Cursor} (hn : cursor.rest.length < n)
    (hm : cursor.rest.length < m) : cursor.tokensUpTo n = cursor.tokensUpTo m := by
  induction n generalizing m cursor with
  | zero => omega
  | succ n ih =>
    obtain ⟨m, rfl⟩ : ∃ m', m = m' + 1 := ⟨m - 1, by omega⟩
    unfold tokensUpTo
    by_cases hend : cursor.next.1.kind = .endOfFile
    · simp only [if_pos hend]
    · -- A token takes a character at least, so one less than each bound still is enough.
      have hlength := length_rest_next hend
      simp only [if_neg hend]
      exact congrArg _ (ih (by omega) (by omega))

/-- The tokens are the next one and those after it. -/
theorem tokens_eq (cursor : Cursor) :
    cursor.tokens = if cursor.next.1.kind = .endOfFile then [cursor.next.1]
      else cursor.next.1 :: cursor.next.2.tokens := by
  conv => lhs; unfold tokens tokensUpTo
  by_cases hend : cursor.next.1.kind = .endOfFile
  · simp only [if_pos hend]
  · have hlength := length_rest_next hend
    simp only [if_neg hend]
    rw [tokens, tokensUpTo_eq (n := cursor.rest.length) hlength (Nat.lt_succ_self _)]

/-- When nothing but blanks is left, the end of the file is the only token. -/
theorem tokens_of_blank {cursor : Cursor} (h : cursor.rest.dropWhile Text.isBlank = []) :
    cursor.tokens = [endToken cursor.source] := by
  rw [tokens_eq, if_pos ((next_kind_eq_endOfFile_iff cursor).mpr h), next_of_blank h]

/-- After the end of the file it is still there. -/
theorem tokens_next_of_end {cursor : Cursor} (h : cursor.next.1.kind = .endOfFile) :
    cursor.next.2.tokens = [endToken cursor.source] := by
  rw [next_of_blank ((next_kind_eq_endOfFile_iff cursor).mp h)]
  exact tokens_of_blank (by rw [rest_atEnd]; rfl)

/-- The tokens that are left are some that are not the end of the file, and then that. -/
theorem tokens_eq_append (cursor : Cursor) :
    ∃ w, cursor.tokens = w ++ [endToken cursor.source] ∧ w.length ≤ cursor.rest.length ∧
      ∀ token ∈ w, token.kind ≠ .endOfFile := by
  induction cursor using Cursor.induction with
  | atEnd cursor hend =>
    rw [tokens_of_blank ((next_kind_eq_endOfFile_iff cursor).mp hend)]
    exact ⟨[], rfl, Nat.zero_le _, by simp⟩
  | step cursor hend ih =>
    -- The token takes a character at least, so there are no more tokens than characters.
    have hlength := length_rest_next hend
    obtain ⟨w, hw, hle, hkinds⟩ := ih
    rw [tokens_eq, if_neg hend, hw, next_source]
    refine ⟨cursor.next.1 :: w, rfl, ?_, ?_⟩
    · rw [List.length_cons]
      omega
    · intro token htoken
      rcases List.mem_cons.mp htoken with rfl | htoken
      · exact hend
      · exact hkinds token htoken

end Cursor

/-- The tokens of a text are some that are not the end of the file, and then that. -/
theorem lex_eq_append (source : String) :
    ∃ w, lex source = w ++ [Cursor.endToken source.toList] ∧
      ∀ token ∈ w, token.kind ≠ .endOfFile := by
  obtain ⟨w, hw, -, hkinds⟩ := (Cursor.ofString source).tokens_eq_append
  exact ⟨w, hw, hkinds⟩

/-- The end of the file is the only token of its kind. -/
theorem eq_endToken_of_mem_lex {source : String} {token : Token} (htoken : token ∈ lex source)
    (hkind : token.kind = .endOfFile) : token = Cursor.endToken source.toList := by
  obtain ⟨w, hlex, hkinds⟩ := lex_eq_append source
  rw [hlex, List.mem_append, List.mem_singleton] at htoken
  exact htoken.resolve_left fun hw => hkinds token hw hkind

end LineCalc
