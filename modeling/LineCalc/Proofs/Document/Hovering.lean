import Mathlib.Data.List.Chain
import LineCalc.Document.Session
import LineCalc.Proofs.Lexing.Characters
import LineCalc.Proofs.Parsing.Acceptance
import LineCalc.Proofs.Parsing.Soundness
import LineCalc.Proofs.Registration

/-!
# Hovering over tokens

The word at a column is found by the characters of words around it, without the tokens of the line.
On a line that is parsed it is the token nevertheless (`hover_sees_tokens`). A name takes all
characters of words that follow it. And those before it end, because the grammar has no number, name
or unknown token directly before a name (`Derives.namesApart`): what stands there are blanks, or an
operator, a parenthesis or a comma, which are no characters of words.
-/

namespace LineCalc

open LineCalc.Parser (Production)

/-! ## Names stand apart -/

/-- The first of two tokens is no number, name or unknown token if the second is a name. -/
def Separates (first second : Token) : Prop :=
  second.kind = .identifier → first.kind.showsLexeme = false

/-- Before every name but the first of some tokens comes an operator, a parenthesis or a comma. -/
abbrev NamesApart (ts : List Token) : Prop :=
  ts.IsChain Separates

/-- Names that are apart are still so if a token between them is none. -/
theorem NamesApart.join {separator : Token} {ts us : List Token} (h : NamesApart ts)
    (hseparator : separator.kind.showsLexeme = false) (hus : NamesApart us) :
    NamesApart (ts ++ separator :: us) := by
  have hname : separator.kind ≠ .identifier := by
    intro hkind
    rw [hkind] at hseparator
    cases hseparator
  refine List.isChain_append.mpr ⟨h, List.isChain_cons.mpr ⟨fun _ _ _ => hseparator, hus⟩, ?_⟩
  intro token _ next hnext hkind
  obtain rfl := Option.some.inj hnext
  exact absurd hkind hname

/-- A separator can be put before names that are apart. -/
theorem NamesApart.cons {separator : Token} {ts : List Token} (h : NamesApart ts)
    (hseparator : separator.kind.showsLexeme = false) : NamesApart (separator :: ts) :=
  @NamesApart.join separator [] ts .nil hseparator h

/-- A separator can be put behind names that are apart. -/
theorem NamesApart.concat {separator : Token} {ts : List Token} (h : NamesApart ts)
    (hseparator : separator.kind.showsLexeme = false) : NamesApart (ts ++ [separator]) :=
  h.join hseparator .nil

/-- The kind of an operator tells its characters. -/
theorem TokenKind.showsLexeme_of_isOperator {kind : TokenKind} (h : kind.isOperator) :
    kind.showsLexeme = false := by
  cases kind <;> first | rfl | simp [isOperator, isSign, joinsFactors] at h

/-- So do those of parentheses and commas. -/
theorem TokenKind.showsLexeme_of_bracket {kind : TokenKind}
    (h : kind = .leftParenthesis ∨ kind = .rightParenthesis ∨ kind = .comma) :
    kind.showsLexeme = false := by
  rcases h with rfl | rfl | rfl <;> rfl

mutual

/-- In what the grammar derives names are apart. -/
theorem Derives.namesApart : ∀ {p : Production} {ts : List Token} {e : Expr}, Derives p ts e →
    NamesApart ts
  | _, _, _, .number _ => .singleton _
  | _, _, _, .name _ => .singleton _
  | _, _, _, .group ho h hc =>
    (h.namesApart.cons (TokenKind.showsLexeme_of_bracket (.inl ho))).concat
      (TokenKind.showsLexeme_of_bracket (.inr (.inl hc)))
  | _, _, _, .call h ho hus hc =>
    (h.namesApart.join (TokenKind.showsLexeme_of_bracket (.inl ho)) hus.namesApart).concat
      (TokenKind.showsLexeme_of_bracket (.inr (.inl hc)))
  | _, _, _, .primary h => h.namesApart
  | _, _, _, .power h hcaret hus =>
    h.namesApart.join (by simp [hcaret, TokenKind.showsLexeme]) hus.namesApart
  | _, _, _, .factor h => h.namesApart
  | _, _, _, .signed hsign h =>
    h.namesApart.cons (TokenKind.showsLexeme_of_isOperator (by simp [TokenKind.isOperator, hsign]))
  | _, _, _, .term h => h.namesApart
  | _, _, _, .product h ho hus =>
    h.namesApart.join (TokenKind.showsLexeme_of_isOperator (by simp [TokenKind.isOperator, ho]))
      hus.namesApart
  | _, _, _, .expression h => h.namesApart
  | _, _, _, .sum h ho hus =>
    h.namesApart.join (TokenKind.showsLexeme_of_isOperator (by simp [TokenKind.isOperator, ho]))
      hus.namesApart
  | _, _, _, .complete h => h.namesApart

/-- So they are in the arguments of a call. -/
theorem DerivesArguments.namesApart : ∀ {ts : List Token} {es : List Expr},
    DerivesArguments ts es → NamesApart ts
  | _, _, .none => .nil
  | _, _, .some h hus => hus.namesApart h.namesApart

/-- The arguments after the first come behind commas, so they can be put behind an expression. -/
theorem DerivesMore.namesApart : ∀ {us : List Token} {es : List Expr}, DerivesMore us es →
    ∀ {ts : List Token}, NamesApart ts → NamesApart (ts ++ us)
  | _, _, .nil, _, hts => by rwa [List.append_nil]
  | _, _, .cons hcomma h hus, _, hts => by
    have hmore := hus.namesApart h.namesApart
    exact hts.join (TokenKind.showsLexeme_of_bracket (.inr (.inr hcomma))) hmore

end

/-- On a line that is parsed, names are apart. -/
theorem namesApart_of_parse {source : String} {e : Expr} (h : parse source = .ok e) :
    NamesApart (lex source) := by
  obtain ⟨ts, hlex, hts⟩ := lex_eq_append source
  obtain ⟨t, hreads, -⟩ := (parse_eq_ok_iff hlex hts e).mp h
  rw [hlex]
  exact hreads.derives.namesApart.concat rfl

namespace Document

/-! ## Words of a row -/

/-- At a column of a row there starts a word: characters of words, with no other ones directly
before them and directly behind them. -/
structure IsWordAt (row word : List Char) (column : Nat) : Prop where
  /-- Its characters are those of words. -/
  chars : ∀ c ∈ word, Text.isWordChar c = true
  /-- It is the whole of such characters. -/
  split : ∃ before after, row = before ++ (word ++ after) ∧ before.length = column ∧
    (∀ c ∈ before.getLast?, Text.isWordChar c = false) ∧
    ∀ c ∈ after.head?, Text.isWordChar c = false

/-- At every column of a word, the word is found. -/
theorem IsWordAt.wordInLine_eq {row word : List Char} {start column : Nat}
    (h : IsWordAt row word start) (hstart : start ≤ column) (hend : column < start + word.length) :
    wordInLine row column = word := by
  obtain ⟨hchars, before, after, rfl, rfl, hbefore, hafter⟩ := h
  -- How many characters of the word are left of the column.
  obtain ⟨k, rfl⟩ := Nat.exists_eq_add_of_le hstart
  have hk : k < word.length := by omega
  have hsymbol : (before ++ (word ++ after))[before.length + k]?.filter isSymbol = none := by
    have hget : (before ++ (word ++ after))[before.length + k]? = some word[k] := by
      rw [List.getElem?_append_right (by omega), Nat.add_sub_cancel_left,
        List.getElem?_append_left hk, List.getElem?_eq_getElem hk]
    rw [hget, Option.filter_some, if_neg]
    simp [Text.not_isSymbol_of_isWordChar (hchars _ (List.getElem_mem hk))]
  have hleft : ((before ++ (word ++ after)).take (before.length + k)).reverse.takeWhile
      Text.isWordChar = (word.take k).reverse := by
    rw [List.take_length_add_append, List.take_append_of_le_length (by omega),
      List.reverse_append]
    refine (takeWhile_append_of_head ?_ ?_).1
    · exact fun c hc => hchars c (List.mem_of_mem_take (List.mem_reverse.mp hc))
    · rwa [List.head?_reverse]
  have hright : ((before ++ (word ++ after)).drop (before.length + k)).takeWhile
      Text.isWordChar = word.drop k := by
    rw [List.drop_length_add_append, List.drop_append_of_le_length (by omega)]
    exact (takeWhile_append_of_head (fun c hc => hchars c (List.mem_of_mem_drop hc)) hafter).1
  unfold wordInLine
  rw [hsymbol]
  dsimp only
  rw [hleft, hright, List.reverse_reverse, List.take_append_drop]

end Document

/-! ## Tokens in a row -/

namespace Cursor

/-- The tokens that are read start with the next one. -/
theorem head?_tokens (cursor : Cursor) : cursor.tokens.head? = some cursor.next.1 := by
  rw [tokens_eq]
  split <;> rfl

/-- If names are apart from here on, and a name that comes next does not go on with a word that the
cursor has come past, then every name from here on is a word of the text. -/
theorem isWordAt_of_namesApart (cursor : Cursor) (hapart : NamesApart cursor.tokens)
    (hfirst : cursor.next.1.kind = .identifier →
      ∀ c ∈ (cursor.source.take cursor.pos).getLast?, Text.isWordChar c = false) :
    ∀ token ∈ cursor.tokens, token.kind = .identifier →
      Document.IsWordAt cursor.source token.lexeme.toList token.offset := by
  induction cursor using Cursor.induction with
  | atEnd cursor hend =>
    intro token htoken hkind
    rw [tokens_eq, if_pos hend, List.mem_singleton] at htoken
    rw [htoken, hend] at hkind
    cases hkind
  | step cursor hend ih =>
    obtain ⟨before, c, cs, after, hsource, hoffset, hpos, hlexeme, hscan, hlast⟩ :=
      exists_token_split hend
    have htokens : cursor.tokens = cursor.next.1 :: cursor.next.2.tokens := by
      rw [tokens_eq, if_neg hend]
    rw [htokens] at hapart ⊢
    obtain ⟨hhead, htail⟩ := List.isChain_cons.mp hapart
    rw [next_source] at ih
    -- Behind this token there can only be a name if the token is a separator.
    have hlater := ih htail fun hname d hd => by
      have hseparator : (scan c (cs ++ after)).1.showsLexeme = false := by
        rw [hscan]
        exact hhead _ (head?_tokens cursor.next.2) hname
      obtain ⟨hword, hchars⟩ := scan_of_separator hseparator
      obtain rfl : cs = [] := by
        rw [hscan] at hchars
        exact (List.cons.inj hchars).2
      rw [← hpos, hsource, ← List.append_assoc, List.take_left, List.getLast?_append] at hd
      obtain rfl := Option.some.inj hd
      exact hword
    intro token htoken hname
    rcases List.mem_cons.mp htoken with rfl | htoken
    -- This token is a name: the run of word characters from its first one on.
    · obtain ⟨hword, hchars⟩ := scan_of_identifier (congrArg Prod.fst hscan |>.trans hname)
      have htake : (cs ++ after).takeWhile Text.isWordChar = cs := by
        rw [hscan] at hchars
        exact (List.cons.inj hchars).2.symm
      have hdrop : (cs ++ after).dropWhile Text.isWordChar = after := by
        have happend := List.takeWhile_append_dropWhile (p := Text.isWordChar) (l := cs ++ after)
        rw [htake] at happend
        exact List.append_cancel_left happend
      rw [hlexeme]
      refine ⟨List.forall_mem_cons.mpr ⟨hword, ?_⟩, before, after, hsource, hoffset, ?_, ?_⟩
      · rw [← htake]
        exact List.all_eq_true.mp List.all_takeWhile
      · intro d hd
        rw [Bool.eq_false_iff]
        intro hd'
        rw [hfirst hname d (hlast d hd hd')] at hd'
        cases hd'
      · rw [← hdrop]
        exact head_dropWhile Text.isWordChar _
    · exact hlater token htoken hname

end Cursor

/-! ## Hovering -/

/-- Every built-in name that can be known has a meaning. -/
theorem Builtin.exists_signature {groups : List String} {name : String}
    (h : name ∈ knownNames groups) : ∃ meaning, signature? name = some meaning := by
  rcases (mem_knownNames_iff_math groups name).mp h with ⟨op, rfl⟩ | ⟨-, hname⟩
  · cases op <;> exact ⟨_, rfl⟩
  · have hmath : ((math : List (String × Value Empty)).map Prod.fst).all
        (fun name => (signature? name).isSome) = true := by decide
    exact Option.isSome_iff_exists.mp (List.all_eq_true.mp hmath name hname)

namespace Document

variable {text : String} {line : Nat} {row : List Char} {token : Token}

/-- The word that is found at a column of a line is the answer there, if it is not empty. -/
theorem wordAt_eq (hrow : (Text.lines text.toList)[line]? = some row) {column : Nat} {word : String}
    (hcolumn : column ≤ row.length) (hword : wordInLine row column = word.toList)
    (hne : word ≠ "") : wordAt text line column = .ok (some word) := by
  have hempty : word.toList.isEmpty = false := by
    rw [List.isEmpty_eq_false_iff, Ne, String.toList_eq_nil_iff]
    exact hne
  unfold wordAt
  rw [hrow]
  dsimp only
  rw [if_neg (Nat.not_lt.mpr hcolumn), hword, hempty, String.ofList_toList]
  rfl

/-- A token of a line is a piece of it. -/
theorem isPiece_of_mem_lex (htoken : token ∈ lex (String.ofList row))
    (hkind : token.kind ≠ .endOfFile) : token.IsPiece row := by
  have hpiece := Cursor.isPiece_of_mem htoken hkind
  rwa [Cursor.ofString, String.toList_ofList] at hpiece

/-- At every column of a name, on a line that is parsed, the answer is the name. -/
theorem wordAt_name (hrow : (Text.lines text.toList)[line]? = some row) {e : Expr}
    (hparse : parse (String.ofList row) = .ok e) (htoken : token ∈ lex (String.ofList row))
    (hname : token.kind = .identifier) {column : Nat} (hstart : token.offset ≤ column)
    (hend : column < token.stop) : wordAt text line column = .ok (some token.lexeme) := by
  have hpiece := isPiece_of_mem_lex htoken (by simp [hname])
  have hword : IsWordAt row token.lexeme.toList token.offset := by
    have hwords := (Cursor.ofString (String.ofList row)).isWordAt_of_namesApart
      (namesApart_of_parse hparse) (fun _ => by simp [Cursor.ofString]) token htoken hname
    rwa [Cursor.ofString, String.toList_ofList] at hwords
  have hstop := hpiece.stop_le
  refine wordAt_eq hrow (by omega) (hword.wordInLine_eq hstart ?_) hpiece.nonempty
  rwa [String.length_toList]

/-- At the column of an operator the answer is its symbol. -/
theorem wordAt_operator (hrow : (Text.lines text.toList)[line]? = some row)
    (htoken : token ∈ lex (String.ofList row)) {op : Operator} (hkind : token.kind = op.kind) :
    wordAt text line token.offset = .ok (some op.symbol) := by
  have hend : token.kind ≠ .endOfFile := by
    rw [hkind]
    cases op <;> simp [Operator.kind]
  have hshown : token.kind.showsLexeme = false := by
    rw [hkind]
    cases op <;> rfl
  have hpiece := isPiece_of_mem_lex htoken hend
  obtain ⟨c, hsymbol, hlexeme⟩ := exists_symbol htoken hshown hend
  have hget : row[token.offset]? = some c := by
    have hchars : [c] = (row.drop token.offset).take 1 := by
      simpa [hlexeme] using hpiece.lexeme
    rw [← List.head?_drop, ← List.take_append_drop 1 (row.drop token.offset), ← hchars]
    rfl
  have hword : wordInLine row token.offset = op.symbol.toList := by
    rw [← lexeme_eq_symbol htoken hkind, hlexeme]
    have hc : isSymbol c = true := by rw [isSymbol, hsymbol]; rfl
    unfold wordInLine
    rw [hget]
    simp [Option.filter, hc]
  have hstop := hpiece.stop_le
  refine wordAt_eq hrow ?_ hword ?_
  · unfold Token.stop at hstop
    omega
  · cases op <;> decide

/-- At every column of a name or an operator the answer is its lexeme. -/
theorem wordAt_token (hrow : (Text.lines text.toList)[line]? = some row) {e : Expr}
    (hparse : parse (String.ofList row) = .ok e) (htoken : token ∈ lex (String.ofList row))
    (hkind : token.kind = .identifier ∨ token.kind.isOperator) {column : Nat}
    (hstart : token.offset ≤ column) (hend : column < token.stop) :
    wordAt text line column = .ok (some token.lexeme) := by
  rcases hkind with hname | hoperator
  · exact wordAt_name hrow hparse htoken hname hstart hend
  · obtain ⟨op, hop⟩ := TokenKind.exists_operator hoperator
    have hlexeme := lexeme_eq_symbol htoken hop
    -- An operator has one column.
    have hone : token.lexeme.length = 1 := by
      rw [hlexeme]
      cases op <;> rfl
    obtain rfl : column = token.offset := by
      unfold Token.stop at hend
      omega
    rw [hlexeme]
    exact wordAt_operator hrow htoken hop

/-- A session answers a hover over a word with what the word means. -/
theorem Session.handle_hover {session : Session} {uri : String} {held : Held} {line column : Nat}
    {word : String} (hheld : session.documents.get? uri = some held)
    (hword : wordAt held.text line column = .ok (some word)) :
    session.handle (.hover uri line column) = (.hover (Builtin.signature? word), session) := by
  have hhover : session.hover uri line column = .ok (Builtin.signature? word) := by
    unfold Session.hover
    rw [hheld]
    show (do return (← wordAt held.text line column).bind Builtin.signature?) = _
    rw [hword]
    rfl
  simp only [Session.handle, hhover]

/-- On a line of a text that is parsed, hovering sees the tokens: at every column of a name the word
is that name, and at the column of an operator its symbol. So in a session that holds the text, the
answer to a hover over a built-in name is what this name means. -/
theorem hover_sees_tokens (text : String) (line : Nat) (row : List Char) (e : Expr)
    (hrow : (Text.lines text.toList)[line]? = some row)
    (hparse : parse (String.ofList row) = .ok e) :
    ∀ token ∈ lex (String.ofList row),
      (token.kind = .identifier → ∀ column, token.offset ≤ column → column < token.stop →
        wordAt text line column = .ok (some token.lexeme)) ∧
      (∀ op : Operator, token.kind = op.kind →
        wordAt text line token.offset = .ok (some op.symbol)) ∧
      ∀ groups, token.lexeme ∈ Builtin.knownNames groups →
        token.kind = .identifier ∨ token.kind.isOperator →
        ∃ meaning, Builtin.signature? token.lexeme = some meaning ∧
          ∀ (session : Session) (uri : String) (held : Held),
            session.documents.get? uri = some held → held.text = text →
            ∀ column, token.offset ≤ column → column < token.stop →
              session.handle (.hover uri line column) = (.hover (some meaning), session) := by
  intro token htoken
  refine ⟨fun hname column hstart hend => wordAt_name hrow hparse htoken hname hstart hend,
    fun op hkind => wordAt_operator hrow htoken hkind, fun groups hknown hkind => ?_⟩
  obtain ⟨meaning, hmeaning⟩ := Builtin.exists_signature hknown
  refine ⟨meaning, hmeaning, fun session uri held hheld htext column hstart hend => ?_⟩
  have hword := wordAt_token hrow hparse htoken hkind hstart hend
  rw [← htext] at hword
  rw [Session.handle_hover hheld hword, hmeaning]

set_option maxRecDepth 4000 in
/-- The last character of a name on the second line of a text, and an operator before the name with
a number directly before it. -/
theorem hover_sees_sine :
    let text := "x\n2*sin(3)"
    let session := ((Session.ofGroups ["math"]).handle (.hold "file" text)).2
    wordAt text 1 4 = .ok (some "sin") ∧ wordAt text 1 1 = .ok (some "*") ∧
      ∃ meaning, Builtin.signature? "sin" = some meaning ∧
        session.handle (.hover "file" 1 4) = (.hover (some meaning), session) := by
  intro text session
  let row := "2*sin(3)".toList
  let call : SyntaxTree :=
    .call (.leaf ⟨.identifier, "sin", 2⟩) [.leaf ⟨.number, "3", 6⟩]
  let product : SyntaxTree := .call (.leaf ⟨.star, "*", 1⟩) [.leaf ⟨.number, "2", 0⟩, call]
  have hrow : (Text.lines text.toList)[1]? = some row := by decide
  have hsource : String.ofList row = "2*sin(3)" := String.ofList_toList
  have hparse : parse "2*sin(3)" = .ok (product.map Atom.ofToken) := by rfl
  have hlex : lex "2*sin(3)" = [⟨.number, "2", 0⟩, ⟨.star, "*", 1⟩,
      ⟨.identifier, "sin", 2⟩, ⟨.leftParenthesis, "(", 5⟩, ⟨.number, "3", 6⟩,
      ⟨.rightParenthesis, ")", 7⟩, ⟨.endOfFile, "", 8⟩] := by rfl
  have hsees := hover_sees_tokens text 1 row _ hrow (hsource ▸ hparse)
  rw [hsource] at hsees
  obtain ⟨hname, -, hmeans⟩ := hsees ⟨.identifier, "sin", 2⟩ (by simp [hlex])
  obtain ⟨-, hoperator, -⟩ := hsees ⟨.star, "*", 1⟩ (by simp [hlex])
  have hknown : "sin" ∈ Builtin.knownNames ["math"] := by decide
  have hheld : session.documents.get? "file" =
      some ⟨text, Index.ofText session.known text⟩ := OrderedMap.get?_insert_self _ _ _
  obtain ⟨meaning, hmeaning, hanswer⟩ := hmeans ["math"] hknown (.inl rfl)
  exact ⟨hname rfl 4 (by decide) (by decide), hoperator .multiply rfl, meaning, hmeaning,
    hanswer session "file" _ hheld rfl 4 (by decide) (by decide)⟩

end Document

end LineCalc
