import LineCalc.Proofs.Lexing.Partition

/-!
# The characters of tokens

Every token but the end of the file stands in its text, and has been scanned there (`TokenAt`). So
its kind tells which characters can be in it: a number has those of literals, a name those of words,
and a separator is one symbol, which is none of words. Behind the first character of any token but a
number there is no symbol, and a letter is there only in a name.
-/

namespace LineCalc

/-! ## Scanned characters -/

/-- A symbol is no character of words. -/
theorem Text.isWordChar_of_isSymbol {c : Char} (h : isSymbol c = true) :
    Text.isWordChar c = false := by
  obtain ⟨kind, hkind⟩ := Option.isSome_iff_exists.mp h
  have hall : symbols.all (fun c => !Text.isWordChar c) = true := by decide +kernel
  simpa using List.all_eq_true.mp hall c (mem_symbols hkind)

/-- A character of words is no symbol. -/
theorem Text.not_isSymbol_of_isWordChar {c : Char} (h : Text.isWordChar c = true) :
    isSymbol c = false := by
  rw [Bool.eq_false_iff]
  intro hsymbol
  rw [Text.isWordChar_of_isSymbol hsymbol] at h
  cases h

/-- A name takes all characters of words from its first one on. -/
theorem scan_of_identifier {c : Char} {cs : List Char} (h : (scan c cs).1 = .identifier) :
    Text.isWordChar c = true ∧ (scan c cs).2 = c :: cs.takeWhile Text.isWordChar := by
  unfold scan at h ⊢
  split at h
  · cases h
  · next hnumber =>
    rw [if_neg hnumber]
    split at h
    · next hname =>
      rw [if_pos hname]
      refine ⟨?_, rfl⟩
      simp only [Bool.or_eq_true] at hname
      rcases hname with hletter | hunderscore <;> simp_all [Text.isWordChar]
    · split at h
      · next kind hsymbol =>
        obtain rfl : kind = .identifier := h
        cases TokenKind.showsLexeme_of_ofSymbol? hsymbol
      · cases h

/-- A separator is one character, and none of words. -/
theorem scan_of_separator {c : Char} {cs : List Char}
    (h : (scan c cs).1.showsLexeme = false) :
    Text.isWordChar c = false ∧ (scan c cs).2 = [c] := by
  rcases scan_cases c cs with ⟨-, hscan⟩ | ⟨_, hscan⟩ | ⟨kind, hsymbol, hscan⟩ | ⟨_, hscan⟩
  · rw [hscan] at h
    cases h
  · rw [hscan] at h
    cases h
  · rw [hscan]
    exact ⟨Text.isWordChar_of_isSymbol (by rw [isSymbol, hsymbol]; rfl), rfl⟩
  · rw [hscan] at h
    cases h

/-- The characters of a run of unknown characters start no other token. -/
theorem endsUnknown_of_mem_unknownRun {d : Char} {cs : List Char} (hd : d ∈ unknownRun cs) :
    Text.isLetter d = false ∧ isSymbol d = false := by
  obtain ⟨ds, hends⟩ := exists_not_endsUnknown hd
  simp only [endsUnknown, Bool.or_eq_false_iff] at hends
  exact ⟨hends.1.2, hends.2⟩

/-! ## Tokens in their texts -/

/-- A token in its text: what comes before it, its characters, and what is behind it. A character of
words directly before it is one that the cursor has come past. -/
theorem Cursor.exists_token_split {cursor : Cursor} (hend : cursor.next.1.kind ≠ .endOfFile) :
    ∃ before c cs after, cursor.source = before ++ (c :: cs ++ after) ∧
      before.length = cursor.next.1.offset ∧ (before ++ c :: cs).length = cursor.next.2.pos ∧
      cursor.next.1.lexeme.toList = c :: cs ∧ scan c (cs ++ after) = (cursor.next.1.kind, c :: cs) ∧
      ∀ d ∈ before.getLast?, Text.isWordChar d = true →
        d ∈ (cursor.source.take cursor.pos).getLast? := by
  obtain ⟨bs, c, cs, hrest, hbs, hc, hscan, hlexeme, hoffset, hpos⟩ := exists_step hend
  have hkind : cursor.next.1.kind = (scan c (cs ++ cursor.next.2.rest)).1 := by
    have hdrop : cursor.rest.dropWhile Text.isBlank = c :: (cs ++ cursor.next.2.rest) := by
      rw [hrest, List.dropWhile_append_of_pos hbs, List.cons_append, List.dropWhile_cons, hc]
      rfl
    exact congrArg (fun read => read.1.kind) (next_of_cons hdrop)
  have hbefore : (cursor.source.take cursor.pos ++ bs).length = cursor.next.1.offset := by
    have hcount := congrArg List.length hrest
    simp only [rest, List.length_drop, List.length_append, List.length_cons] at hcount
    rw [List.length_append, List.length_take]
    omega
  refine ⟨cursor.source.take cursor.pos ++ bs, c, cs, cursor.next.2.rest, ?_, hbefore, ?_, ?_, ?_, ?_⟩
  · rw [List.append_assoc, ← hrest]
    exact (List.take_append_drop cursor.pos cursor.source).symm
  · rw [List.length_append, hbefore, hoffset, hpos]
  · rw [hlexeme, String.toList_ofList]
  · exact Prod.ext hkind.symm hscan
  · intro d hd hword
    rw [List.getLast?_append] at hd
    cases hlast : bs.getLast? with
    | none =>
      rw [hlast] at hd
      exact hd
    | some b =>
      -- A blank is no character of words.
      rw [hlast] at hd
      obtain rfl := Option.some.inj hd
      rw [Text.isWordChar_of_isBlank (hbs b (List.mem_of_getLast? hlast))] at hword
      cases hword

/-- A token in its text: what comes before it, its characters, of which there is one at least, and
what is behind it. It has been scanned there. -/
structure TokenAt (source : List Char) (token : Token) (before : List Char) (c : Char)
    (cs after : List Char) : Prop where
  source : source = before ++ (c :: cs ++ after)
  offset : before.length = token.offset
  lexeme : token.lexeme.toList = c :: cs
  scan : scan c (cs ++ after) = (token.kind, c :: cs)

/-- Every token but the end of the file stands in the text. -/
theorem Cursor.exists_tokenAt (cursor : Cursor) : ∀ token ∈ cursor.tokens,
    token.kind ≠ .endOfFile → ∃ before c cs after, TokenAt cursor.source token before c cs after := by
  induction cursor using Cursor.induction with
  | atEnd cursor hend =>
    intro token htoken hkind
    rw [tokens_eq, if_pos hend, List.mem_singleton] at htoken
    exact absurd (htoken ▸ hend) hkind
  | step cursor hend ih =>
    intro token htoken hkind
    rw [tokens_eq, if_neg hend, List.mem_cons] at htoken
    rcases htoken with rfl | htoken
    · obtain ⟨before, c, cs, after, hsource, hoffset, -, hlexeme, hscan, -⟩ :=
        exists_token_split hend
      exact ⟨before, c, cs, after, hsource, hoffset, hlexeme, hscan⟩
    · rw [next_source] at ih
      exact ih token htoken hkind

namespace TokenAt

variable {source before cs after : List Char} {token : Token} {c : Char}
  (h : TokenAt source token before c cs after)
include h

/-- A token stops behind its characters. -/
theorem stop_eq : token.stop = before.length + cs.length + 1 := by
  rw [Token.stop, ← h.offset, ← String.length_toList, h.lexeme, List.length_cons, Nat.add_assoc]

/-- A token covers its first character, and behind that the others. -/
theorem getElem?_eq {i : Nat} (hstart : token.offset ≤ i) (hstop : i < token.stop) {d : Char}
    (hd : source[i]? = some d) : (i = token.offset ∧ d = c) ∨ (token.offset < i ∧ d ∈ cs) := by
  have hstopEq := h.stop_eq
  obtain ⟨k, rfl⟩ := Nat.exists_eq_add_of_le (h.offset ▸ hstart)
  rw [h.source, List.getElem?_append_right (Nat.le_add_right _ _), Nat.add_sub_cancel_left] at hd
  rw [← h.offset]
  cases k with
  | zero => exact .inl ⟨rfl, (Option.some.inj hd).symm⟩
  | succ k =>
    rw [List.cons_append, List.getElem?_cons_succ, List.getElem?_append_left (by omega)] at hd
    exact .inr ⟨by omega, List.mem_of_getElem? hd⟩

/-- A number holds digits and the other characters of literals. -/
theorem mem_of_number (hkind : token.kind = .number) {d : Char} (hd : d ∈ c :: cs) :
    d.isDigit = true ∨ d ∈ ['.', '+', '-', 'e', 'E'] := by
  have hstarts := (scan_kind_eq_number_iff c (cs ++ after)).mp (by rw [h.scan, hkind])
  have hchars := scan_of_starts hstarts
  rw [h.scan] at hchars
  exact (Literal.wellFormed_read hstarts).mem_chars (hchars ▸ hd)

/-- A number starts with a digit or with a point. -/
theorem head_of_number (hkind : token.kind = .number) : c.isDigit = true ∨ c = '.' := by
  have hstarts := (scan_kind_eq_number_iff c (cs ++ after)).mp (by rw [h.scan, hkind])
  unfold Literal.starts at hstarts
  split at hstarts
  · next hchars => exact .inr (List.cons.inj hchars).1
  · next hchars => exact .inl ((List.cons.inj hchars).1 ▸ hstarts)
  · cases hstarts

/-- Behind the first character of a token that is no number there is no symbol, and where there is a
letter the token is a name. -/
theorem mem_of_not_number (hkind : token.kind ≠ .number) {d : Char} (hd : d ∈ cs) :
    isSymbol d = false ∧ (Text.isLetter d = true → token.kind = .identifier) := by
  have hscan := h.scan
  unfold LineCalc.scan at hscan
  split at hscan
  · exact absurd (congrArg Prod.fst hscan).symm hkind
  · split at hscan
    · obtain ⟨hname, hcs⟩ := Prod.mk.inj hscan
      have hword : Text.isWordChar d = true := by
        rw [← (List.cons.inj hcs).2] at hd
        exact List.all_eq_true.mp List.all_takeWhile d hd
      exact ⟨Text.not_isSymbol_of_isWordChar hword, fun _ => hname.symm⟩
    · split at hscan
      · obtain ⟨-, hcs⟩ := Prod.mk.inj hscan
        rw [← (List.cons.inj hcs).2] at hd
        cases hd
      · obtain ⟨-, hcs⟩ := Prod.mk.inj hscan
        rw [← (List.cons.inj hcs).2] at hd
        obtain ⟨hletter, hsymbol⟩ := endsUnknown_of_mem_unknownRun hd
        refine ⟨hsymbol, fun hd' => ?_⟩
        rw [hletter] at hd'
        cases hd'

/-- A name consists of characters of words. -/
theorem isWordChar_of_identifier (hkind : token.kind = .identifier) :
    ∀ d ∈ c :: cs, Text.isWordChar d = true := by
  have hscan := h.scan
  obtain ⟨hc, hchars⟩ := scan_of_identifier (congrArg Prod.fst hscan |>.trans hkind)
  rw [hscan] at hchars
  refine List.forall_mem_cons.mpr ⟨hc, ?_⟩
  rw [(List.cons.inj hchars).2]
  exact List.all_eq_true.mp List.all_takeWhile

/-- A token that starts with a letter is a name, because a number starts with a digit or a point. -/
theorem identifier_of_isLetter (hletter : Text.isLetter c = true) (hdigit : c.isDigit = false)
    (hpoint : c ≠ '.') : token.kind = .identifier := by
  have hnumber : token.kind ≠ .number := by
    intro hkind
    rcases h.head_of_number hkind with hc | hc
    · rw [hdigit] at hc
      cases hc
    · exact hpoint hc
  have hscan := h.scan
  unfold LineCalc.scan at hscan
  split at hscan
  · exact absurd (congrArg Prod.fst hscan).symm hnumber
  · rw [hletter, Bool.true_or, if_pos rfl] at hscan
    exact (congrArg Prod.fst hscan).symm

end TokenAt

end LineCalc
