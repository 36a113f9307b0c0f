import LineCalc.Proofs.Lexing.Lexemes

/-!
# Where tokens end

How far a token reaches can depend on up to three characters behind it: a letter `e`, a sign and a
digit would go on with a number, and a digit makes a number of the point before it. `Sees` says
what two texts behind a token must have in common for it to be the same before both of them: up to
the first stop, a comma, a parenthesis or a blank, the second text shows nothing that the first does
not show (`Sees.scan_eq`). In particular a stop ends every token before it: a token that starts in
some characters is the same if a stop follows them (`scan_append`). So a text that is one token is
read as this token wherever it stands before a stop or at the end (`Lexes.lexeme`), and the tokens
of a text are still there when a stop and more are appended (`lex_append`).

`Lexes` says of characters before others how they are read: as tokens with some property, and then
the others are left. Such statements are put together by `Lexes.append`, so that the tokens of a
text that is built up from pieces are known from those of the pieces.
-/

namespace LineCalc

/-! ## Stops -/

namespace Text

/-- No range of one list has a code point in common with a range of the other. -/
def disjointRanges (ranges others : List (Nat × Nat)) : Bool :=
  ranges.all fun r => others.all fun r' => r.2 < r'.1 || r'.2 < r.1

/-- A character in one of two disjoint sets is not in the other. -/
theorem inRanges_eq_false {ranges others : List (Nat × Nat)}
    (h : disjointRanges ranges others = true) {c : Char} (hc : inRanges ranges c = true) :
    inRanges others c = false := by
  rw [Bool.eq_false_iff, Ne, inRanges_iff]
  rintro ⟨r', hr', hfirst', hlast'⟩
  obtain ⟨r, hr, hfirst, hlast⟩ := inRanges_iff.mp hc
  have hapart := List.all_eq_true.mp (List.all_eq_true.mp h r hr) r' hr'
  simp only [Bool.or_eq_true, decide_eq_true_eq] at hapart
  omega

/-- No blank stands inside a word. -/
theorem isWordChar_of_isBlank {c : Char} (h : isBlank c = true) : isWordChar c = false := by
  have hletters : disjointRanges blankRanges letterRanges = true := by decide +kernel
  have hnumerals : disjointRanges blankRanges numeralRanges = true := by decide +kernel
  have hletter : isLetter c = false := inRanges_eq_false hletters h
  have hnumeral : isNumeral c = false := inRanges_eq_false hnumerals h
  have hunderscore : (c == '_') = false := by
    rw [beq_eq_false_iff_ne]
    rintro rfl
    exact absurd h (by decide)
  rw [isWordChar, hletter, hnumeral, hunderscore]
  rfl

end Text

/-- A comma, a parenthesis or a blank: a character before which every token ends. -/
def IsStop (c : Char) : Prop :=
  c = ',' ∨ (c = '(' ∨ c = ')') ∨ Text.isBlank c = true

/-- A text is empty or starts with a stop. -/
def Stops (post : List Char) : Prop :=
  ∀ c ∈ post.head?, IsStop c

namespace IsStop

variable {c : Char} (h : IsStop c)
include h

/-- No stop stands inside a word. -/
theorem not_isWordChar : Text.isWordChar c = false := by
  have hsymbols : Text.isWordChar ',' = false ∧ Text.isWordChar '(' = false ∧
      Text.isWordChar ')' = false := by decide +kernel
  rcases h with rfl | (rfl | rfl) | h
  · exact hsymbols.1
  · exact hsymbols.2.1
  · exact hsymbols.2.2
  · exact Text.isWordChar_of_isBlank h

/-- No stop is a digit. -/
theorem not_isDigit : c.isDigit = false := by
  cases hdigit : c.isDigit with
  | false => rfl
  | true =>
    have hword := h.not_isWordChar
    rw [Text.isWordChar, Text.isNumeral_of_isDigit hdigit] at hword
    simp at hword

/-- No stop is a point, a sign or the letter of an exponent. -/
theorem not_mem : c ∉ ['.', '+', '-', 'e', 'E'] := by
  intro hmem
  rcases h with rfl | (rfl | rfl) | h
  · exact absurd hmem (by decide)
  · exact absurd hmem (by decide)
  · exact absurd hmem (by decide)
  · have hall : ['.', '+', '-', 'e', 'E'].all fun d => !Text.isBlank d := by decide
    have hblank := List.all_eq_true.mp hall c hmem
    rw [h] at hblank
    cases hblank

/-- A stop ends a run of unknown characters. -/
theorem endsUnknown (cs : List Char) : endsUnknown c cs = true := by
  rcases h with rfl | (rfl | rfl) | h
  · simp [LineCalc.endsUnknown, isSymbol, TokenKind.ofSymbol?]
  · simp [LineCalc.endsUnknown, isSymbol, TokenKind.ofSymbol?]
  · simp [LineCalc.endsUnknown, isSymbol, TokenKind.ofSymbol?]
  · simp [LineCalc.endsUnknown, h]

end IsStop

/-! ## What is behind a token -/

/-- Of two texts behind a token, the second shows up to its first stop only what the first one
shows, and it starts with a literal if the first one does, or with a stop. -/
structure Sees (xs ys : List Char) : Prop where
  seen : ∀ p, p <+: ys → (∀ c ∈ p, ¬IsStop c) → p <+: xs
  starts : Stops ys ∨ (Literal.starts xs = true → Literal.starts ys = true)

namespace Sees

/-- A text that stops shows nothing. -/
theorem of_stops {xs ys : List Char} (h : Stops ys) : Sees xs ys where
  seen := by
    rintro p ⟨rest, rfl⟩ hp
    cases p with
    | nil => exact List.nil_prefix
    | cons c p => exact absurd (h c rfl) (hp c List.mem_cons_self)
  starts := .inl h

/-- A text shows the same if what it goes on with stops. -/
theorem append {post : List Char} (h : Stops post) (xs : List Char) : Sees xs (xs ++ post) where
  seen := by
    intro p hp hstop
    rcases List.prefix_or_prefix_of_prefix hp (List.prefix_append xs post) with hxs | ⟨q, rfl⟩
    · exact hxs
    · -- What goes beyond the text would start with a stop.
      have hq : q <+: post := (List.prefix_append_right_inj xs).mp hp
      cases q with
      | nil => simp
      | cons c q =>
        obtain ⟨rest, rfl⟩ := hq
        exact absurd (h c rfl) (hstop c (by simp))
  starts := by
    cases xs with
    | nil => exact .inl h
    | cons c xs =>
      refine .inr fun hstarts => ?_
      by_cases hpoint : c = '.'
      · subst hpoint
        cases xs with
        | nil => exact absurd hstarts (by decide)
        | cons d xs => exact hstarts
      · simpa [Literal.starts, hpoint] using hstarts

variable {xs ys : List Char} (h : Sees xs ys)
include h

/-- The second text starts with a stop or as the first one does. -/
theorem head {c : Char} (hc : c ∈ ys.head?) : IsStop c ∨ c ∈ xs.head? := by
  by_cases hstop : IsStop c
  · exact .inl hstop
  · obtain ⟨rest, rfl⟩ := List.head?_eq_some_iff.mp hc
    obtain ⟨rest', rfl⟩ := h.seen [c] ⟨rest, rfl⟩ (by simpa using hstop)
    exact .inr rfl

/-- A property that neither a stop nor the first character of the first text has is not one of the
first character of the second. -/
theorem head_eq_false {p : Char → Bool} (hstop : ∀ c, IsStop c → p c = false)
    (hxs : ∀ c ∈ xs.head?, p c = false) : ∀ c ∈ ys.head?, p c = false := by
  intro c hc
  rcases h.head hc with hc | hc
  · exact hstop c hc
  · exact hxs c hc

/-- A literal that the first text does not go on with is not gone on with by the second. -/
theorem endsBefore {l : Literal} (hl : l.EndsBefore xs) : l.EndsBefore ys where
  digit := h.head_eq_false (fun _ hc => hc.not_isDigit) hl.digit
  point := by
    intro hfraction hexponent c hc
    rcases h.head hc with hstop | hc
    · rintro rfl
      exact hstop.not_mem (by simp)
    · exact hl.point hfraction hexponent c hc
  exponent := by
    intro hexponent
    have hnone := (Exponent.read_eq_none_iff xs).mp (hl.exponent hexponent)
    refine (Exponent.read_eq_none_iff ys).mpr fun e he hchars => hnone e he ?_
    -- There is no stop among the characters of an exponent, so they are seen in both texts.
    refine h.seen _ hchars fun c hc hstop => ?_
    have hother := hstop.not_mem
    simp only [Exponent.chars, List.mem_cons, List.mem_append, Option.mem_toList] at hc
    rcases hc with rfl | hc | hc
    · rcases he.letter with hletter | hletter <;> simp [hletter] at hother
    · rcases he.sign c hc with rfl | rfl <;> simp at hother
    · exact absurd (he.digits c hc) (by simp [hstop.not_isDigit])

/-- No literal starts at a character before the second text if none does before the first. -/
theorem starts_cons {c : Char} {cs : List Char}
    (hstarts : Literal.starts (c :: (cs ++ xs)) = false) :
    Literal.starts (c :: (cs ++ ys)) = false := by
  by_cases hpoint : c = '.'
  · subst hpoint
    cases cs with
    | cons d cs => exact hstarts
    | nil =>
      -- After a point the next character counts, which must not be a digit.
      have hxs : ∀ d ∈ xs.head?, d.isDigit = false := by
        cases xs with
        | nil => exact nofun
        | cons d xs => exact fun e he => Option.some.inj he ▸ hstarts
      have hys := h.head_eq_false (fun _ hc => hc.not_isDigit) hxs
      cases ys with
      | nil => rfl
      | cons d ys => exact hys d rfl
  · simpa [Literal.starts, hpoint] using hstarts

/-- A run of unknown characters that ends before the first text ends before the second. -/
theorem unknownRun_eq {cs : List Char} (hrun : unknownRun (cs ++ xs) = cs) :
    unknownRun (cs ++ ys) = cs := by
  induction cs with
  | nil =>
    cases ys with
    | nil => rfl
    | cons c ys =>
      have hends : endsUnknown c ys = true := by
        rcases h.head (rfl : c ∈ (c :: ys).head?) with hstop | hhead
        · exact hstop.endsUnknown ys
        · obtain ⟨rest, rfl⟩ := List.head?_eq_some_iff.mp hhead
          have hrest : endsUnknown c rest = true := by
            rw [List.nil_append, unknownRun] at hrun
            split at hrun
            · next hends => exact hends
            · cases hrun
          -- The first characters are the same, and a literal starts at both or at none.
          rcases h.starts with hstops | hstarts
          · exact (hstops c rfl).endsUnknown ys
          · unfold endsUnknown at hrest ⊢
            simp only [Bool.or_eq_true] at hrest ⊢
            exact hrest.imp_left (Or.imp_left (Or.imp_right hstarts))
      rw [List.nil_append, unknownRun, if_pos hends]
  | cons c cs ih =>
    rw [List.cons_append, unknownRun] at hrun
    split at hrun
    · cases hrun
    · next hends =>
      have hends : endsUnknown c (cs ++ xs) = false := by simpa using hends
      unfold endsUnknown at hends
      simp only [Bool.or_eq_false_iff] at hends
      have hends' : endsUnknown c (cs ++ ys) = false := by
        unfold endsUnknown
        simp only [Bool.or_eq_false_iff]
        exact ⟨⟨⟨hends.1.1.1, h.starts_cons hends.1.1.2⟩, hends.1.2⟩, hends.2⟩
      rw [List.cons_append, unknownRun, hends', ih (List.cons.inj hrun).2]
      rfl

/-- A word that ends before the first text ends before the second. -/
theorem takeWhile_eq {cs : List Char} (htake : (cs ++ xs).takeWhile Text.isWordChar = cs) :
    (cs ++ ys).takeWhile Text.isWordChar = cs := by
  have hcs : ∀ d ∈ cs, Text.isWordChar d = true := by
    rw [← htake]
    exact List.all_eq_true.mp List.all_takeWhile
  have hxs : ∀ d ∈ xs.head?, Text.isWordChar d = false := by
    have hhead := head_dropWhile Text.isWordChar (cs ++ xs)
    have happend := List.takeWhile_append_dropWhile (p := Text.isWordChar) (l := cs ++ xs)
    rw [htake, List.append_cancel_left_eq] at happend
    rwa [happend] at hhead
  have hys := h.head_eq_false (fun _ hc => hc.not_isWordChar) hxs
  exact (takeWhile_append_of_head hcs hys).1

/-- A literal that ends before the first text ends before the second. -/
theorem read_eq {cs : List Char} (hstarts : Literal.starts (cs ++ xs) = true)
    (hchars : (Literal.read (cs ++ xs)).1.chars = cs) :
    Literal.starts (cs ++ ys) = true ∧
      (Literal.read (cs ++ ys)).1 = (Literal.read (cs ++ xs)).1 := by
  have hwell := Literal.wellFormed_read hstarts
  have hends := Literal.endsBefore_read (cs ++ xs)
  have happend := Literal.read_append (cs ++ xs)
  rw [hchars, List.append_cancel_left_eq] at happend
  rw [happend] at hends
  have hread := Literal.read_chars hwell (h.endsBefore hends)
  have hstarts' := Literal.starts_chars hwell ys
  rw [hchars] at hread hstarts'
  exact ⟨hstarts', by rw [hread]⟩

/-- A token is the same before both texts. -/
theorem scan_eq {c : Char} {cs : List Char} (hscan : (scan c (cs ++ xs)).2 = c :: cs) :
    scan c (cs ++ ys) = scan c (cs ++ xs) := by
  cases hstarts : Literal.starts (c :: (cs ++ xs)) with
  | true =>
    rw [scan, if_pos hstarts] at hscan
    have hchars : (Literal.read (c :: cs ++ xs)).1.chars = c :: cs := hscan
    obtain ⟨hstarts', hread⟩ := h.read_eq hstarts hchars
    rw [List.cons_append] at hstarts' hread
    rw [scan, scan, if_pos hstarts, if_pos hstarts', hread]
    rfl
  | false =>
    have hstarts' := h.starts_cons hstarts
    simp only [scan, hstarts, hstarts', Bool.false_eq_true, if_false] at hscan ⊢
    by_cases hletter : (Text.isLetter c || c == '_') = true
    · rw [if_pos hletter] at hscan
      rw [if_pos hletter, if_pos hletter]
      have htake : (cs ++ xs).takeWhile Text.isWordChar = cs := (List.cons.inj hscan).2
      rw [htake, h.takeWhile_eq htake]
    · rw [if_neg hletter] at hscan
      rw [if_neg hletter, if_neg hletter]
      cases hsymbol : TokenKind.ofSymbol? c with
      | some kind => rfl
      | none =>
        rw [hsymbol] at hscan
        have hrun : unknownRun (cs ++ xs) = cs := (List.cons.inj hscan).2
        rw [hrun, h.unknownRun_eq hrun]

end Sees

/-- A token is the same before a stop and at the end. -/
theorem scan_append {post : List Char} (h : Stops post) (c : Char) (cs : List Char) :
    scan c (cs ++ post) = scan c cs := by
  obtain ⟨rest, hrest⟩ := scan_isPrefix c cs
  obtain ⟨d, ds, hchars⟩ := List.exists_cons_of_ne_nil (scan_ne_nil c cs)
  rw [hchars, List.cons_append] at hrest
  obtain ⟨rfl, rfl⟩ := List.cons.inj hrest
  rw [List.append_assoc]
  exact (Sees.append h rest).scan_eq hchars

/-- The characters that are tokens by themselves. -/
def symbols : List Char :=
  ['+', '-', '*', '/', '%', '^', ',', '(', ')']

/-- There are no other such characters. -/
theorem mem_symbols {c : Char} {kind : TokenKind} (h : TokenKind.ofSymbol? c = some kind) :
    c ∈ symbols := by
  unfold TokenKind.ofSymbol? at h
  split at h <;> simp_all [symbols]

/-- A symbol is no blank, and is a token by itself. -/
theorem scan_symbol {c : Char} {kind : TokenKind} (hc : TokenKind.ofSymbol? c = some kind)
    (cs : List Char) : Text.isBlank c = false ∧ scan c cs = (kind, [c]) := by
  -- The tables of letters are asked about nine characters only.
  have hall : symbols.all fun c => !Text.isBlank c &&
      !c.isDigit && c != '.' && !Text.isLetter c && c != '_' := by
    decide +kernel
  have hfacts := List.all_eq_true.mp hall c (mem_symbols hc)
  simp only [Bool.and_eq_true, Bool.not_eq_true', bne_iff_ne] at hfacts
  obtain ⟨⟨⟨⟨hblank, hdigit⟩, hpoint⟩, hletter⟩, hunderscore⟩ := hfacts
  have hstarts : Literal.starts (c :: cs) = false := by
    simp [Literal.starts, hpoint, hdigit]
  refine ⟨hblank, ?_⟩
  unfold scan
  simp [hstarts, hletter, hunderscore, hc]

/-! ## Characters read as tokens -/

/-- Characters before others are read as tokens with a property, and then the others are left. -/
def Lexes (P : List Token → Prop) (cs post : List Char) : Prop :=
  ∀ cursor : Cursor, cursor.rest = cs ++ post →
    ∃ ts after, cursor.tokens = ts ++ Cursor.tokens after ∧ after.rest = post ∧ P ts

namespace Lexes

variable {P Q : List Token → Prop} {cs ds post : List Char}

/-- What is read has other properties as well. -/
theorem mono (h : Lexes P cs post) (hPQ : ∀ ts, P ts → Q ts) : Lexes Q cs post := by
  intro cursor hrest
  obtain ⟨ts, after, htokens, hafter, hts⟩ := h cursor hrest
  exact ⟨ts, after, htokens, hafter, hPQ ts hts⟩

/-- Characters after others are read after them. -/
theorem append (h : Lexes P cs (ds ++ post)) (h' : Lexes Q ds post) :
    Lexes (fun ts => ∃ us vs, ts = us ++ vs ∧ P us ∧ Q vs) (cs ++ ds) post := by
  intro cursor hrest
  rw [List.append_assoc] at hrest
  obtain ⟨us, middle, htokens, hmiddle, hus⟩ := h cursor hrest
  obtain ⟨vs, after, htokens', hafter, hvs⟩ := h' middle hmiddle
  rw [htokens', ← List.append_assoc] at htokens
  exact ⟨us ++ vs, after, htokens, hafter, us, vs, rfl, hus, hvs⟩

/-- No characters are no tokens. -/
theorem nil : Lexes (· = []) [] post := fun cursor hrest => ⟨[], cursor, rfl, hrest, rfl⟩

/-- A blank is no token. -/
theorem blank {c : Char} (hc : Text.isBlank c = true) : Lexes (· = []) [c] post := by
  intro cursor hrest
  have hcursor : cursor.source.drop cursor.pos = c :: post := hrest
  have hafter : (⟨cursor.source, cursor.pos + 1⟩ : Cursor).rest = post := by
    show cursor.source.drop (cursor.pos + 1) = post
    rw [← List.drop_drop, hcursor]
    rfl
  have hdrop : cursor.rest.dropWhile Text.isBlank = post.dropWhile Text.isBlank := by
    rw [hrest]
    simp [hc]
  have htake : (cursor.rest.takeWhile Text.isBlank).length =
      (post.takeWhile Text.isBlank).length + 1 := by
    rw [hrest]
    simp [hc]
  -- Both cursors pass over the same blanks but one, which the position makes up for.
  have hnext : cursor.next = (⟨cursor.source, cursor.pos + 1⟩ : Cursor).next := by
    cases hpost : post.dropWhile Text.isBlank with
    | nil =>
      rw [Cursor.next_of_blank (hdrop.trans hpost), Cursor.next_of_blank (by rw [hafter, hpost])]
      rfl
    | cons d ds =>
      rw [Cursor.next_of_cons (hdrop.trans hpost), Cursor.next_of_cons (by rw [hafter, hpost]),
        htake, hafter]
      simp only [Nat.add_assoc, Nat.add_comm 1]
  refine ⟨[], ⟨cursor.source, cursor.pos + 1⟩, ?_, hafter, rfl⟩
  rw [Cursor.tokens_eq, hnext, ← Cursor.tokens_eq]
  rfl

/-- The characters of a token are read as the token. -/
theorem scanned {c : Char} (hc : Text.isBlank c = false)
    (hscan : (scan c (cs ++ post)).2 = c :: cs) :
    Lexes (fun ts => ∃ token, ts = [token] ∧ token.kind = (scan c (cs ++ post)).1 ∧
      token.lexeme = String.ofList (c :: cs)) (c :: cs) post := by
  intro cursor hrest
  have hdrop : cursor.rest.dropWhile Text.isBlank = c :: (cs ++ post) := by
    rw [hrest, List.cons_append, List.dropWhile_cons, hc]
    rfl
  have hend : cursor.next.1.kind ≠ .endOfFile := by
    rw [Ne, Cursor.next_kind_eq_endOfFile_iff, hdrop]
    simp
  refine ⟨[cursor.next.1], cursor.next.2, ?_, ?_, cursor.next.1, rfl, ?_, ?_⟩
  · rw [Cursor.tokens_eq, if_neg hend]
    rfl
  · rw [Cursor.rest_next hdrop, hscan, ← List.cons_append, List.drop_left]
  · rw [Cursor.next_of_cons hdrop]
  · rw [Cursor.next_of_cons hdrop, hscan]

/-- A symbol is a token by itself. -/
theorem symbol {c : Char} {kind : TokenKind} (hc : TokenKind.ofSymbol? c = some kind) :
    Lexes (fun ts => ∃ token, ts = [token] ∧ token.kind = kind ∧
      token.lexeme = String.ofList [c]) [c] post := by
  obtain ⟨hblank, hscan⟩ := scan_symbol hc post
  have hchars : (scan c ([] ++ post)).2 = [c] := congrArg Prod.snd hscan
  refine (scanned hblank hchars).mono ?_
  rintro ts ⟨token, hts, hkind, hlexeme⟩
  exact ⟨token, hts, hkind.trans (congrArg Prod.fst hscan), hlexeme⟩

/-- A text that is one token is this token before a stop. -/
theorem lexeme {w : String} {kind : TokenKind} (hkind : kind ≠ .endOfFile)
    (hw : lex w = [⟨kind, w, 0⟩, Cursor.endToken w.toList]) (hpost : Stops post) :
    Lexes (fun ts => ∃ token, ts = [token] ∧ token.kind = kind ∧ token.lexeme = w)
      w.toList post := by
  have hnext : (Cursor.ofString w).next.1 = ⟨kind, w, 0⟩ := by
    have htokens : (Cursor.ofString w).tokens = _ := hw
    rw [Cursor.tokens_eq] at htokens
    split at htokens
    · exact (List.cons.inj htokens).1
    · exact (List.cons.inj htokens).1
  have hrest : (Cursor.ofString w).rest = w.toList := rfl
  cases hdrop : w.toList.dropWhile Text.isBlank with
  | nil =>
    rw [Cursor.next_of_blank (hrest ▸ hdrop)] at hnext
    exact absurd (congrArg Token.kind hnext).symm hkind
  | cons c cs =>
    rw [Cursor.next_of_cons (hrest ▸ hdrop)] at hnext
    have hoffset : 0 + (w.toList.takeWhile Text.isBlank).length = 0 := congrArg Token.offset hnext
    have hlexeme : String.ofList (scan c cs).2 = w := congrArg Token.lexeme hnext
    have hfirst : (scan c cs).1 = kind := congrArg Token.kind hnext
    -- No blanks come first, so the token starts with the text.
    have hw : w.toList = c :: cs := by
      have hempty : w.toList.takeWhile Text.isBlank = [] :=
        List.eq_nil_of_length_eq_zero (by omega)
      have happend := List.takeWhile_append_dropWhile (p := Text.isBlank) (l := w.toList)
      rw [hempty, hdrop] at happend
      exact happend.symm
    have hblank : Text.isBlank c = false := by
      have hhead := List.head?_dropWhile_not Text.isBlank w.toList
      rw [hdrop] at hhead
      simpa using hhead
    have hscan : (scan c (cs ++ post)).2 = c :: cs := by
      rw [scan_append hpost, ← hw, ← hlexeme, String.toList_ofList]
    rw [hw]
    refine (scanned hblank hscan).mono ?_
    rintro ts ⟨token, hts, hkind, hchars⟩
    rw [scan_append hpost, hfirst] at hkind
    rw [← hw, String.ofList_toList] at hchars
    exact ⟨token, hts, hkind, hchars⟩

/-- Blanks are no tokens. -/
theorem blanks (h : ∀ c ∈ cs, Text.isBlank c = true) : Lexes (· = []) cs post := by
  induction cs with
  | nil => exact nil
  | cons c cs ih =>
    have hcs := ih fun d hd => h d (List.mem_cons_of_mem c hd)
    refine ((blank (h c List.mem_cons_self)).append hcs).mono ?_
    rintro ts ⟨us, vs, rfl, rfl, rfl⟩
    rfl

end Lexes

/-! ## Texts that go on -/

/-- The tokens up to the end of a text are still there when it goes on with a stop, and then what it
goes on with is left. -/
theorem Cursor.tokens_append {post : List Char} (hpost : Stops post) (cursor : Cursor)
    (hpos : cursor.pos ≤ cursor.source.length) :
    ∃ ts after, cursor.tokens = ts ++ [endToken cursor.source] ∧
      (⟨cursor.source ++ post, cursor.pos⟩ : Cursor).tokens = ts ++ tokens after ∧
      after.rest = post := by
  induction cursor using Cursor.induction with
  | atEnd cursor hend =>
    rw [next_kind_eq_endOfFile_iff] at hend
    -- Only blanks are left in the text, and no tokens come before what it goes on with.
    have hblanks := forall_of_dropWhile_eq_nil hend
    have hrest : (⟨cursor.source ++ post, cursor.pos⟩ : Cursor).rest = cursor.rest ++ post :=
      List.drop_append_of_le_length hpos
    obtain ⟨_, after, htokens, hafter, rfl⟩ := Lexes.blanks hblanks _ hrest
    exact ⟨[], after, tokens_of_blank hend, htokens, hafter⟩
  | step cursor hend ih =>
    obtain ⟨c, cs, hdrop⟩ :=
      List.exists_cons_of_ne_nil (mt (next_kind_eq_endOfFile_iff cursor).mpr hend)
    have hrest : (⟨cursor.source ++ post, cursor.pos⟩ : Cursor).rest = cursor.rest ++ post :=
      List.drop_append_of_le_length hpos
    have hcount :=
      congrArg List.length (List.takeWhile_append_dropWhile (p := Text.isBlank) (l := cursor.rest))
    have hlength : cursor.rest.length = cursor.source.length - cursor.pos := List.length_drop
    rw [hdrop, List.length_append, List.length_cons] at hcount
    have htake : (⟨cursor.source ++ post, cursor.pos⟩ : Cursor).rest.takeWhile Text.isBlank =
        cursor.rest.takeWhile Text.isBlank := by
      rw [hrest, List.takeWhile_append, if_neg (by omega)]
    have hdrop' : (⟨cursor.source ++ post, cursor.pos⟩ : Cursor).rest.dropWhile Text.isBlank =
        c :: (cs ++ post) := by
      rw [hrest, List.dropWhile_append, hdrop]
      rfl
    -- Both texts have the same next token, and behind it they are at the same place.
    have hnext := next_of_cons hdrop
    have hnext' := next_of_cons hdrop'
    rw [htake, scan_append hpost] at hnext'
    have hplace : cursor.pos + (cursor.rest.takeWhile Text.isBlank).length +
        (scan c cs).2.length ≤ cursor.source.length := by
      have hfew := (scan_isPrefix c cs).length_le
      rw [List.length_cons] at hfew
      omega
    rw [hnext] at ih
    obtain ⟨ts, after, htokens, htokens', hrest'⟩ := ih hplace
    refine ⟨cursor.next.1 :: ts, after, ?_, ?_, hrest'⟩
    · rw [tokens_eq, if_neg hend, hnext, htokens, List.cons_append]
    · rw [tokens_eq, hnext', hnext, if_neg (scan_ne_endOfFile c cs), htokens', List.cons_append]

/-- The tokens of a text are still there when it goes on with a stop, and then come those of what it
goes on with. -/
theorem lex_append {s t : String} {ts : List Token} {P : List Token → Prop}
    (hlex : lex s = ts ++ [Cursor.endToken s.toList]) (hstops : Stops t.toList)
    (ht : Lexes P t.toList []) :
    ∃ us, lex (s ++ t) = ts ++ us ++ [Cursor.endToken (s ++ t).toList] ∧ P us := by
  obtain ⟨ts', after, htokens, happended, hafter⟩ :=
    Cursor.tokens_append hstops (Cursor.ofString s) (Nat.zero_le s.toList.length)
  have happended : (⟨s.toList ++ t.toList, 0⟩ : Cursor).tokens = ts' ++ after.tokens := happended
  have hsame : ts' ++ [Cursor.endToken s.toList] = ts ++ [Cursor.endToken s.toList] :=
    htokens.symm.trans hlex
  obtain rfl := List.append_cancel_right hsame
  obtain ⟨us, atEnd, htokens', hatEnd, hus⟩ := ht after (by rw [hafter, List.append_nil])
  have hlast : atEnd.tokens = [Cursor.endToken atEnd.source] :=
    Cursor.tokens_of_blank (by rw [hatEnd]; rfl)
  have hlex' : lex (s ++ t) = ts' ++ us ++ [Cursor.endToken atEnd.source] := by
    unfold lex Cursor.ofString
    rw [String.toList_append, happended, htokens', hlast, List.append_assoc]
  -- The last token is the end of this text, whatever text the cursor is in.
  obtain ⟨all, hall, -⟩ := lex_eq_append (s ++ t)
  rw [hall] at hlex'
  obtain ⟨rfl, -⟩ := List.append_inj' hlex' rfl
  exact ⟨us, hall, hus⟩

end LineCalc
