import LineCalc.Proofs.Document.Hovering

/-!
# Where hovered words come from

The word at a column is found without the tokens of the line. If it has a meaning it is a token of
the line nevertheless, whether the line is parsed or not, with one exception: the sign of an exponent
is a symbol to the search, and part of a number to the tokens (`hovered_word_is_token`).

Every character that is not blank is in some token, and the kind of the token tells which characters
can be in it (`TokenAt`). A symbol is a token by itself or in a number behind its first character. A
word that starts with a letter which is none of exponents is a name, because no other token holds
such a letter, and a name starts and stops where its characters of words do.
-/

namespace LineCalc

/-! ## Words with meanings -/

/-- What holds of all entries with meanings holds of a word and its meaning. -/
theorem Builtin.of_all_signatures {p : String × String → Bool} (hall : signatures.all p = true)
    {word meaning : String} (h : signature? word = some meaning) : p (word, meaning) = true := by
  obtain ⟨before, after, hentries, -⟩ := List.lookup_eq_some_iff.mp h
  exact List.all_eq_true.mp hall _ (by simp [hentries])

/-- A word with a meaning starts with a symbol or with a letter, and neither is a character of
literals, signs apart. -/
theorem Builtin.exists_head {word meaning : String} (h : signature? word = some meaning) :
    ∃ c cs, word.toList = c :: cs ∧ (isSymbol c = true ∨ Text.isLetter c = true) ∧
      c.isDigit = false ∧ c ∉ ['.', 'e', 'E'] := by
  have hall : signatures.all (fun entry => entry.1.toList.head?.any fun c =>
      (isSymbol c || Text.isLetter c) && !c.isDigit && c ∉ ['.', 'e', 'E']) = true := by
    decide +kernel
  have hhead := of_all_signatures hall h
  cases hword : word.toList with
  | nil => simp [hword] at hhead
  | cons c cs =>
    simp only [hword, List.head?_cons, Option.any_some, Bool.and_eq_true, Bool.or_eq_true,
      Bool.not_eq_true', decide_eq_true_eq] at hhead
    exact ⟨c, cs, rfl, hhead.1.1, hhead.1.2, hhead.2⟩

namespace Document

variable {row : List Char} {column : Nat}

/-! ## Tokens at columns -/

/-- The tokens of a row before its end are those of a partition. -/
theorem exists_eq_token {token : Token} {cursor : Cursor} {count : Nat}
    (h : Cursor.Partition cursor count) (htoken : token ∈ cursor.tokens)
    (hkind : token.kind ≠ .endOfFile) : ∃ k < count, token = cursor.token k := by
  rw [h.tokens] at htoken
  obtain ⟨k, -, rfl⟩ := List.mem_map.mp htoken
  refine ⟨k, Nat.lt_of_not_le fun hk => hkind ?_, rfl⟩
  rw [h.atEnd k hk]
  rfl

/-- A character that is not blank is in a token, and that stands in the text. -/
theorem exists_covering {i : Nat} {d : Char} (hd : row[i]? = some d)
    (hblank : Text.isBlank d = false) : ∃ token ∈ lex (String.ofList row),
      token.offset ≤ i ∧ i < token.stop ∧ ∃ before c cs after, TokenAt row token before c cs after := by
  obtain ⟨count, h⟩ := (Cursor.ofString (String.ofList row)).exists_partition
  have hsource : (Cursor.ofString (String.ofList row)).source = row := String.toList_ofList
  rcases h.covered i d (Nat.zero_le i) (by rw [hsource, hd]) with ⟨k, hk, hstart, hstop⟩ | hd
  · have htoken : (Cursor.ofString (String.ofList row)).token k ∈ lex (String.ofList row) := by
      show _ ∈ (Cursor.ofString (String.ofList row)).tokens
      rw [h.tokens]
      exact List.mem_map_of_mem (List.mem_range.mpr (Nat.lt_succ_of_lt hk))
    have hstands := Cursor.exists_tokenAt _ _ htoken (h.piece k hk).kind
    rw [hsource] at hstands
    exact ⟨_, htoken, hstart, hstop, hstands⟩
  · rw [hblank] at hd
    cases hd

/-- A token that touches a column in the inside of another one is that one. -/
theorem eq_of_inside {token other : Token} (htoken : token ∈ lex (String.ofList row))
    (hkind : token.kind ≠ .endOfFile) (hother : other ∈ lex (String.ofList row))
    (hotherKind : other.kind ≠ .endOfFile) (hstart : token.offset ≤ column)
    (hstop : column ≤ token.stop) (hinside : other.offset < column ∧ column < other.stop) :
    token = other := by
  obtain ⟨count, h⟩ := (Cursor.ofString (String.ofList row)).exists_partition
  obtain ⟨j, hj, rfl⟩ := exists_eq_token h htoken hkind
  obtain ⟨k, hk, rfl⟩ := exists_eq_token h hother hotherKind
  rcases Nat.lt_trichotomy j k with hjk | rfl | hkj
  · have hordered := h.ordered j k hjk hk
    omega
  · rfl
  · have hordered := h.ordered k j hkj hj
    omega

/-! ## Words and columns -/

/-- The characters of words around a column are a word, and it reaches to the column. -/
theorem isWordAt_around (h : column ≤ row.length) (hsymbol : row[column]?.filter isSymbol = none) :
    ∃ start, IsWordAt row (wordInLine row column) start ∧ start ≤ column ∧
      column ≤ start + (wordInLine row column).length := by
  have hword : wordInLine row column =
      ((row.take column).reverse.takeWhile Text.isWordChar).reverse ++
        (row.drop column).takeWhile Text.isWordChar := by
    unfold wordInLine
    rw [hsymbol]
  have hleft := List.takeWhile_append_dropWhile (p := Text.isWordChar) (l := (row.take column).reverse)
  have hright := List.takeWhile_append_dropWhile (p := Text.isWordChar) (l := row.drop column)
  have hleftStop := head_dropWhile Text.isWordChar (row.take column).reverse
  have hrightStop := head_dropWhile Text.isWordChar (row.drop column)
  have hleftAll : ∀ c ∈ (row.take column).reverse.takeWhile Text.isWordChar,
      Text.isWordChar c = true := List.all_eq_true.mp List.all_takeWhile
  have hrightAll : ∀ c ∈ (row.drop column).takeWhile Text.isWordChar, Text.isWordChar c = true :=
    List.all_eq_true.mp List.all_takeWhile
  rw [hword]
  generalize (row.take column).reverse.takeWhile Text.isWordChar = left at *
  generalize (row.drop column).takeWhile Text.isWordChar = right at *
  generalize (row.take column).reverse.dropWhile Text.isWordChar = before at *
  generalize (row.drop column).dropWhile Text.isWordChar = after at *
  have htake : row.take column = before.reverse ++ left.reverse := by
    rw [← List.reverse_append, hleft, List.reverse_reverse]
  have hlength := congrArg List.length htake
  rw [List.length_take, Nat.min_eq_left h, List.length_append, List.length_reverse,
    List.length_reverse] at hlength
  refine ⟨before.length, ⟨?_, before.reverse, after, ?_, List.length_reverse, ?_, hrightStop⟩, ?_, ?_⟩
  · intro c hc
    rcases List.mem_append.mp hc with hc | hc
    · exact hleftAll c (List.mem_reverse.mp hc)
    · exact hrightAll c hc
  · rw [List.append_assoc, hright, ← List.append_assoc, ← htake, List.take_append_drop]
  · rwa [List.getLast?_reverse]
  · omega
  · rw [List.length_append, List.length_reverse]
    omega

/-! ## Tokens of words -/

/-- A symbol at a column is a token, or it is the sign of an exponent. -/
theorem exists_token_of_isSymbol {d : Char} (hd : row[column]? = some d)
    (hsymbol : isSymbol d = true) :
    (∃ token ∈ lex (String.ofList row), token.lexeme.toList = [d] ∧ token.offset = column) ∨
      (∃ numeral ∈ lex (String.ofList row), numeral.kind = .number ∧ numeral.offset < column ∧
        column < numeral.stop) ∧ (d = '+' ∨ d = '-') := by
  obtain ⟨kind, hkind⟩ := Option.isSome_iff_exists.mp hsymbol
  obtain ⟨token, htoken, hstart, hstop, before, c, cs, after, h⟩ :=
    exists_covering hd (scan_symbol hkind []).1
  rcases h.getElem?_eq hstart hstop hd with ⟨rfl, rfl⟩ | ⟨hbehind, hmem⟩
  · refine .inl ⟨token, htoken, ?_, rfl⟩
    have hscan := h.scan
    rw [(scan_symbol hkind _).2] at hscan
    rw [h.lexeme, (Prod.mk.inj hscan).2]
  · have hnumber : token.kind = .number := by
      by_contra hother
      rw [(h.mem_of_not_number hother hmem).1] at hsymbol
      cases hsymbol
    have hall : symbols.all (fun d => decide ((d.isDigit = true ∨ d ∈ ['.', '+', '-', 'e', 'E']) →
        d = '+' ∨ d = '-')) = true := by
      decide +kernel
    have hsign := of_decide_eq_true (List.all_eq_true.mp hall d (mem_symbols hkind))
    exact .inr ⟨⟨token, htoken, hnumber, hbehind, hstop⟩,
      hsign (h.mem_of_number hnumber (List.mem_cons_of_mem c hmem))⟩

/-- A word starts with its first character. -/
theorem IsWordAt.getElem?_eq {c : Char} {cs : List Char} {start : Nat}
    (h : IsWordAt row (c :: cs) start) : row[start]? = some c := by
  obtain ⟨before, after, hrow, hbefore, -, -⟩ := h.split
  rw [hrow, ← hbefore, List.getElem?_append_right (Nat.le_refl _), Nat.sub_self]
  rfl

/-- Directly before a word there is no character of words. -/
theorem IsWordAt.isWordChar_before {word : List Char} {d : Char}
    (h : IsWordAt row word (column + 1)) (hd : row[column]? = some d) :
    Text.isWordChar d = false := by
  obtain ⟨before, after, hrow, hbefore, hfirst, -⟩ := h.split
  have hlt : column < before.length := by omega
  have hlast : before.getLast? = some d := by
    rw [hrow, List.getElem?_append_left hlt] at hd
    rw [List.getLast?_eq_getElem?, hbefore]
    exact hd
  exact hfirst d hlast

/-- A token at the place of a word that starts with a letter is this word, if it is no number. -/
theorem IsWordAt.lexeme_eq {token : Token} {before cs ds after : List Char} {c : Char}
    (hword : IsWordAt row (c :: cs) token.offset) (h : TokenAt row token before c ds after)
    (hletter : Text.isLetter c = true) (hkind : token.kind ≠ .number) :
    token.lexeme.toList = c :: cs := by
  obtain ⟨hchars, before', after', hrow, hbefore, -, hlast⟩ := hword
  have hrest : ds ++ after = cs ++ after' :=
    (List.cons.inj (List.append_inj_right (h.source.symm.trans hrow)
      (h.offset.trans hbefore.symm))).2
  have hscan := h.scan
  unfold scan at hscan
  split at hscan
  · exact absurd (congrArg Prod.fst hscan).symm hkind
  · -- The name takes all characters of words that follow, and so does the word.
    rw [hletter, Bool.true_or, if_pos rfl, hrest] at hscan
    rw [h.lexeme, ← (Prod.mk.inj hscan).2, (takeWhile_append_of_head
      (fun d hd => hchars d (List.mem_cons_of_mem c hd)) hlast).1]

/-- A word that starts with a letter which is in no number is a name. -/
theorem exists_token_of_isWordAt {c : Char} {cs : List Char} {start : Nat}
    (hword : IsWordAt row (c :: cs) start) (hletter : Text.isLetter c = true)
    (hliteral : ¬(c.isDigit = true ∨ c ∈ ['.', '+', '-', 'e', 'E'])) :
    ∃ token ∈ lex (String.ofList row), token.lexeme.toList = c :: cs ∧ token.offset = start := by
  have hblank : Text.isBlank c = false := by
    rw [Bool.eq_false_iff]
    intro hblank
    have hwordChar := hword.chars c List.mem_cons_self
    rw [Text.isWordChar_of_isBlank hblank] at hwordChar
    cases hwordChar
  obtain ⟨token, htoken, hstart, hstop, before, c', ds, after, h⟩ :=
    exists_covering hword.getElem?_eq hblank
  have hnumber : c ∈ c' :: ds → token.kind ≠ .number := fun hc hnumber =>
    hliteral (h.mem_of_number hnumber hc)
  rcases h.getElem?_eq hstart hstop hword.getElem?_eq with ⟨rfl, rfl⟩ | ⟨hbehind, hmem⟩
  · exact ⟨token, htoken, hword.lexeme_eq h hletter (hnumber List.mem_cons_self), rfl⟩
  · -- Behind the first character of a name, the character before is one of words.
    have hname := (h.mem_of_not_number (hnumber (List.mem_cons_of_mem c' hmem)) hmem).2 hletter
    obtain ⟨previous, rfl⟩ := Nat.exists_eq_add_one_of_ne_zero (Nat.ne_zero_of_lt hbehind)
    obtain ⟨d, hd⟩ : ∃ d, row[previous]? = some d := by
      have hlt := (List.getElem?_eq_some_iff.mp hword.getElem?_eq).1
      exact ⟨_, List.getElem?_eq_getElem (Nat.lt_of_succ_lt hlt)⟩
    have hin : d ∈ c' :: ds := by
      rcases h.getElem?_eq (by omega) (by omega) hd with ⟨-, rfl⟩ | ⟨-, hd⟩
      · exact List.mem_cons_self
      · exact List.mem_cons_of_mem c' hd
    have hwordChar := h.isWordChar_of_identifier hname d hin
    rw [hword.isWordChar_before hd] at hwordChar
    cases hwordChar

/-! ## Hovered words -/

/-- A column is in the inside of a number of a row: some of its characters are before the column, and
some from it on. -/
def InsideNumber (row : List Char) (column : Nat) : Prop :=
  ∃ numeral ∈ lex (String.ofList row), numeral.kind = .number ∧ numeral.offset < column ∧
    column < numeral.stop

/-- A token of a row touches a column: it covers the column or stops at it. -/
def Touches (token : Token) (column : Nat) : Prop :=
  token.offset ≤ column ∧ column ≤ token.stop

variable {text : String} {line : Nat} {word meaning : String}

/-- A word that is found at a column is the one in the line. -/
theorem wordInLine_of_wordAt (hrow : (Text.lines text.toList)[line]? = some row)
    (hword : wordAt text line column = .ok (some word)) :
    column ≤ row.length ∧ wordInLine row column = word.toList := by
  unfold wordAt at hword
  rw [hrow] at hword
  dsimp only at hword
  split at hword
  · cases hword
  · next hcolumn =>
    refine ⟨Nat.le_of_not_lt hcolumn, ?_⟩
    split at hword
    · cases hword
    · cases hword
      exact String.toList_ofList.symm

/-- A word with a meaning is a token at the column, or a sign in a number. -/
theorem exists_token_or_insideNumber (hrow : (Text.lines text.toList)[line]? = some row)
    (hword : wordAt text line column = .ok (some word))
    (hmeaning : Builtin.signature? word = some meaning) :
    (∃ token ∈ lex (String.ofList row), token.lexeme = word ∧ Touches token column) ∨
      InsideNumber row column ∧ (word = "+" ∨ word = "-") := by
  obtain ⟨hcolumn, hfound⟩ := wordInLine_of_wordAt hrow hword
  cases hget : row[column]?.filter isSymbol with
  | some d =>
    -- The word is this symbol, even where the symbol is no token.
    obtain ⟨hd, hsymbol⟩ := Option.filter_eq_some_iff.mp hget
    have hone : word.toList = [d] := by
      rw [← hfound, wordInLine, hget]
    rcases exists_token_of_isSymbol hd hsymbol with ⟨token, htoken, hlexeme, rfl⟩ | ⟨hinside, hsign⟩
    · refine .inl ⟨token, htoken, String.toList_inj.mp (hlexeme.trans hone.symm), Nat.le_refl _, ?_⟩
      exact Nat.le_add_right _ _
    · refine .inr ⟨hinside, hsign.imp ?_ ?_⟩ <;>
      · rintro rfl
        exact String.toList_inj.mp hone
  | none =>
    -- The word is the characters of words around the column, and starts as only names do.
    obtain ⟨start, hword, hstart, hstop⟩ := isWordAt_around hcolumn hget
    obtain ⟨c, cs, hchars, hhead, hdigit, hliteral⟩ := Builtin.exists_head hmeaning
    rw [hfound, hchars] at hword hstop
    have hnoSymbol : isSymbol c = false :=
      Text.not_isSymbol_of_isWordChar (hword.chars c List.mem_cons_self)
    have hletter := hhead.resolve_left (by simp [hnoSymbol])
    have hnone : ¬(c.isDigit = true ∨ c ∈ ['.', '+', '-', 'e', 'E']) := by
      simp only [List.mem_cons, List.not_mem_nil, or_false, not_or] at hliteral ⊢
      refine ⟨by simp [hdigit], hliteral.1, ?_, ?_, hliteral.2⟩ <;>
      · rintro rfl
        cases hnoSymbol
    obtain ⟨token, htoken, hlexeme, rfl⟩ := exists_token_of_isWordAt hword hletter hnone
    refine .inl ⟨token, htoken, String.toList_inj.mp (hlexeme.trans hchars.symm), hstart, ?_⟩
    rw [Token.stop, ← String.length_toList, hlexeme]
    exact hstop

/-- In a number there is no other token, and a number is no word with a meaning. -/
theorem not_insideNumber_of_token (hmeaning : Builtin.signature? word = some meaning)
    (htoken : ∃ token ∈ lex (String.ofList row), token.lexeme = word ∧ Touches token column) :
    ¬InsideNumber row column := by
  rintro ⟨numeral, hnumeral, hnumber, hinside⟩
  obtain ⟨token, htoken, rfl, hstart, hstop⟩ := htoken
  obtain ⟨c, cs, hchars, -, hdigit, hliteral⟩ := Builtin.exists_head hmeaning
  have hend : token.kind ≠ .endOfFile := by
    intro hkind
    rw [eq_endToken_of_mem_lex htoken hkind] at hchars
    cases hchars
  obtain rfl := eq_of_inside htoken hend hnumeral (by simp [hnumber]) hstart hstop hinside
  obtain ⟨before, c', cs', after, h⟩ := Cursor.exists_tokenAt _ _ htoken hend
  obtain ⟨rfl, -⟩ := List.cons.inj (h.lexeme.symm.trans hchars)
  rcases h.head_of_number hnumber with hc | rfl
  · rw [hdigit] at hc
    cases hc
  · exact hliteral List.mem_cons_self

/-- A word with a meaning that is found at a column is a token that touches the column, exactly if
the column is not in the inside of a number. There the word is a sign. -/
theorem hovered_word_is_token (text : String) (line column : Nat) (row : List Char)
    (word meaning : String) (hrow : (Text.lines text.toList)[line]? = some row)
    (hword : wordAt text line column = .ok (some word))
    (hmeaning : Builtin.signature? word = some meaning) :
    ((∃ token ∈ lex (String.ofList row), token.lexeme = word ∧ Touches token column) ↔
      ¬InsideNumber row column) ∧
    (InsideNumber row column → word = "+" ∨ word = "-") := by
  have hcases := exists_token_or_insideNumber hrow hword hmeaning
  refine ⟨⟨not_insideNumber_of_token hmeaning, fun hinside => ?_⟩, fun hinside => ?_⟩
  · exact hcases.resolve_right fun hsign => hinside hsign.1
  · exact (hcases.resolve_left fun htoken =>
      not_insideNumber_of_token hmeaning htoken hinside).2

set_option maxRecDepth 4000 in
/-- A name and the sign of an exponent on one line: the name is a token, the sign is in a number. -/
theorem hovered_words_of_scaled_sine :
    (∃ token ∈ lex "sin(1e+5)", token.lexeme = "sin" ∧ Touches token 2) ∧
      InsideNumber "sin(1e+5)".toList 6 ∧
      ¬∃ token ∈ lex "sin(1e+5)", token.lexeme = "+" ∧ Touches token 6 := by
  have hsource : String.ofList "sin(1e+5)".toList = "sin(1e+5)" := String.ofList_toList
  have hrow : (Text.lines "sin(1e+5)".toList)[0]? = some "sin(1e+5)".toList := by decide
  have hlex : lex "sin(1e+5)" = [⟨.identifier, "sin", 0⟩, ⟨.leftParenthesis, "(", 3⟩,
      ⟨.number, "1e+5", 4⟩, ⟨.rightParenthesis, ")", 8⟩, ⟨.endOfFile, "", 9⟩] := by rfl
  have hname : wordAt "sin(1e+5)" 0 2 = .ok (some "sin") := by rfl
  have hsign : wordAt "sin(1e+5)" 0 6 = .ok (some "+") := by rfl
  obtain ⟨sine, hsine⟩ : ∃ meaning, Builtin.signature? "sin" = some meaning := ⟨_, rfl⟩
  obtain ⟨plus, hplus⟩ : ∃ meaning, Builtin.signature? "+" = some meaning := ⟨_, rfl⟩
  obtain ⟨hsineToken, hsineSign⟩ :=
    hovered_word_is_token "sin(1e+5)" 0 2 _ "sin" sine hrow hname hsine
  obtain ⟨hplusToken, -⟩ := hovered_word_is_token "sin(1e+5)" 0 6 _ "+" plus hrow hsign hplus
  rw [hsource] at hsineToken hplusToken
  have hinside : InsideNumber "sin(1e+5)".toList 6 := by
    refine ⟨⟨.number, "1e+5", 4⟩, ?_, rfl, by decide, by decide⟩
    rw [hsource, hlex]
    simp
  refine ⟨hsineToken.mpr fun h => ?_, hinside, fun h => hplusToken.mp h hinside⟩
  exact absurd (hsineSign h) (by decide)

set_option maxRecDepth 4000 in
/-- The sign of an exponent is found and has a meaning, but it is no token of its line. -/
theorem hovered_sign_is_no_token :
    wordAt "1e+5" 0 2 = .ok (some "+") ∧ (∃ meaning, Builtin.signature? "+" = some meaning) ∧
      ∀ token ∈ lex "1e+5", token.lexeme ≠ "+" := by
  have hlex : lex "1e+5" = [⟨.number, "1e+5", 0⟩, ⟨.endOfFile, "", 4⟩] := by rfl
  refine ⟨by rfl, ⟨_, rfl⟩, ?_⟩
  rw [hlex]
  decide

end Document

end LineCalc
