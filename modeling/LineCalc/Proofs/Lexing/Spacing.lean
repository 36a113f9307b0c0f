import LineCalc.Proofs.Lexing.Boundary

/-!
# Blanks between tokens

Two texts that differ only in the blanks between their tokens have the same tokens, apart from
their places. `Respaced` is this relation: it goes through both texts at once, passes over a blank
in either of them, and requires of a token that what is behind it in the second text shows no more
than what is behind it in the first (`Sees`). Its consequence for tokens (`Respaced.exists_tokens`)
has three uses here: a text before a stop (`Respaced.refl`), a text in which blanks are put
between the tokens (`lex_spread`), and the tokens of a text with one space between each and the
next (`lex_intercalate`).
-/

namespace LineCalc

/-! ## Tokens without their places -/

/-- A token, as if it stood at the start of its text. -/
def Token.unplaced (token : Token) : Token :=
  { token with offset := 0 }

/-- The place of a token does not matter to its kind. -/
@[simp] theorem Token.kind_unplaced (token : Token) : token.unplaced.kind = token.kind := rfl

/-- What a whole text is read as are its tokens before the last one. -/
theorem Lexes.lex_eq {P : List Token → Prop} {s : String} (h : Lexes P s.toList []) :
    ∃ ts, lex s = ts ++ [Cursor.endToken s.toList] ∧ P ts := by
  obtain ⟨ts, after, htokens, hafter, hts⟩ :=
    h (Cursor.ofString s) (List.append_nil s.toList).symm
  have hend : after.tokens = [Cursor.endToken after.source] :=
    Cursor.tokens_of_blank (by rw [hafter]; rfl)
  have hlex : lex s = ts ++ [Cursor.endToken after.source] := by rw [← hend, ← htokens, lex]
  -- The last token is the end of this text, whatever text the cursor is in.
  obtain ⟨all, hall, -⟩ := lex_eq_append s
  rw [hall] at hlex
  obtain ⟨rfl, -⟩ := List.append_inj' hlex rfl
  exact ⟨all, hall, hts⟩

/-! ## Texts that differ in blanks -/

/-- Two texts, the second of them before others, that differ in blanks between their tokens. -/
inductive Respaced (post : List Char) : List Char → List Char → Prop
  | nil : Respaced post [] []
  | left {c : Char} {xs ys : List Char} (hc : Text.isBlank c = true) (h : Respaced post xs ys) :
    Respaced post (c :: xs) ys
  | right {c : Char} {xs ys : List Char} (hc : Text.isBlank c = true) (h : Respaced post xs ys) :
    Respaced post xs (c :: ys)
  | token {c : Char} {cs xs ys : List Char} (hc : Text.isBlank c = false)
    (hscan : (scan c (cs ++ xs)).2 = c :: cs) (hsees : Sees xs (ys ++ post))
    (h : Respaced post xs ys) : Respaced post (c :: cs ++ xs) (c :: cs ++ ys)

namespace Respaced

variable {post xs ys : List Char}

/-- Two such texts are read as the same tokens, apart from the places of these. -/
theorem exists_tokens (h : Respaced post xs ys) :
    ∃ ws, Lexes (fun ts => ts.map Token.unplaced = ws) xs [] ∧
      Lexes (fun ts => ts.map Token.unplaced = ws) ys post := by
  -- Blanks before a text are no tokens of it.
  have hskip : ∀ {c : Char} {cs rest : List Char} {ws : List Token}, Text.isBlank c = true →
      Lexes (fun ts => ts.map Token.unplaced = ws) cs rest →
        Lexes (fun ts => ts.map Token.unplaced = ws) (c :: cs) rest := by
    intro c cs rest ws hc hcs
    refine ((Lexes.blank hc).append hcs).mono ?_
    rintro ts ⟨us, vs, rfl, rfl, hvs⟩
    exact hvs
  -- A token before a text comes before the tokens of it.
  have htoken : ∀ {c : Char} {cs ds rest : List Char} {ws : List Token},
      Text.isBlank c = false → (scan c (cs ++ (ds ++ rest))).2 = c :: cs →
        Lexes (fun ts => ts.map Token.unplaced = ws) ds rest →
          Lexes (fun ts => ts.map Token.unplaced =
            ⟨(scan c (cs ++ (ds ++ rest))).1, String.ofList (c :: cs), 0⟩ :: ws)
            (c :: cs ++ ds) rest := by
    intro c cs ds rest ws hc hscan hds
    refine ((Lexes.scanned hc hscan).append hds).mono ?_
    rintro ts ⟨us, vs, rfl, ⟨token, rfl, hkind, hlexeme⟩, hvs⟩
    rw [List.map_append, hvs, List.map_singleton, List.singleton_append, Token.unplaced, hkind,
      hlexeme]
  induction h with
  | nil =>
    have hnil : ∀ rest, Lexes (fun ts => ts.map Token.unplaced = []) [] rest := fun rest =>
      Lexes.nil.mono fun ts hts => by rw [hts, List.map_nil]
    exact ⟨[], hnil [], hnil post⟩
  | left hc _ ih =>
    obtain ⟨ws, hxs, hys⟩ := ih
    exact ⟨ws, hskip hc hxs, hys⟩
  | right hc _ ih =>
    obtain ⟨ws, hxs, hys⟩ := ih
    exact ⟨ws, hxs, hskip hc hys⟩
  | @token c cs xs ys hc hscan hsees _ ih =>
    obtain ⟨ws, hxs, hys⟩ := ih
    have hsame := hsees.scan_eq hscan
    have hfirst := @htoken c cs xs [] ws hc (by rwa [List.append_nil]) hxs
    have hsecond := htoken hc (by rw [hsame, hscan]) hys
    rw [List.append_nil] at hfirst
    rw [hsame] at hsecond
    exact ⟨_, hfirst, hsecond⟩

/-- Blanks can be put before the first text. -/
theorem blanks_left {bs : List Char} (hbs : ∀ c ∈ bs, Text.isBlank c = true)
    (h : Respaced post xs ys) : Respaced post (bs ++ xs) ys := by
  induction bs with
  | nil => exact h
  | cons c bs ih =>
    exact .left (hbs c List.mem_cons_self) (ih fun d hd => hbs d (List.mem_cons_of_mem c hd))

/-- Blanks can be put before the second text. -/
theorem blanks_right {bs : List Char} (hbs : ∀ c ∈ bs, Text.isBlank c = true)
    (h : Respaced post xs ys) : Respaced post xs (bs ++ ys) := by
  induction bs with
  | nil => exact h
  | cons c bs ih =>
    exact .right (hbs c List.mem_cons_self) (ih fun d hd => hbs d (List.mem_cons_of_mem c hd))

/-- Texts of blanks differ only in blanks. -/
theorem of_blanks (hxs : ∀ c ∈ xs, Text.isBlank c = true) (hys : ∀ c ∈ ys, Text.isBlank c = true) :
    Respaced post xs ys := by
  have hleft := blanks_left hxs (Respaced.nil : Respaced post [] [])
  have hboth := blanks_right hys hleft
  rwa [List.append_nil, List.append_nil] at hboth

/-- Two whole texts of this kind have the same tokens, apart from the places of these. -/
theorem lex_eq {s s' : String} (h : Respaced [] s.toList s'.toList) :
    (lex s').map Token.unplaced = (lex s).map Token.unplaced := by
  obtain ⟨ws, hfirst, hsecond⟩ := h.exists_tokens
  obtain ⟨ts, hlex, hts⟩ := hfirst.lex_eq
  obtain ⟨ts', hlex', hts'⟩ := hsecond.lex_eq
  rw [hlex, hlex', List.map_append, List.map_append, hts, hts']
  rfl

end Respaced

/-! ## One step of a cursor -/

/-- Before the end of a text, blanks are followed by the characters of the next token, and then
comes what is left. -/
theorem Cursor.exists_step {cursor : Cursor} (hend : cursor.next.1.kind ≠ .endOfFile) :
    ∃ bs c cs, cursor.rest = bs ++ (c :: cs ++ cursor.next.2.rest) ∧
      (∀ b ∈ bs, Text.isBlank b = true) ∧ Text.isBlank c = false ∧
      (scan c (cs ++ cursor.next.2.rest)).2 = c :: cs ∧
      cursor.next.1.lexeme = String.ofList (c :: cs) ∧
      cursor.next.1.offset = cursor.pos + bs.length ∧
      cursor.next.2.pos = cursor.pos + bs.length + (c :: cs).length := by
  rw [Ne, next_kind_eq_endOfFile_iff] at hend
  obtain ⟨c, us, hdrop⟩ := List.exists_cons_of_ne_nil hend
  have hrest := List.takeWhile_append_dropWhile (p := Text.isBlank) (l := cursor.rest)
  have hblank : Text.isBlank c = false := head_dropWhile _ cursor.rest c (by rw [hdrop]; rfl)
  obtain ⟨d, cs, hchars⟩ := List.exists_cons_of_ne_nil (scan_ne_nil c us)
  obtain ⟨ws, hws⟩ := scan_isPrefix c us
  rw [hchars, List.cons_append] at hws
  obtain ⟨rfl, rfl⟩ := List.cons.inj hws
  have hafter : cursor.next.2.rest = ws := by
    rw [rest_next hdrop, hchars, ← List.cons_append, List.drop_left]
  have hnext := next_of_cons hdrop
  rw [hchars] at hnext
  refine ⟨cursor.rest.takeWhile Text.isBlank, d, cs, ?_, ?_, hblank, ?_, ?_, ?_, ?_⟩
  · rw [hafter, List.cons_append, ← hdrop, hrest]
  · exact List.all_eq_true.mp List.all_takeWhile
  · rw [hafter, hchars]
  · rw [hnext]
  · rw [hnext]
  · rw [hnext]

/-! ## A text before a stop -/

/-- A text is the same as itself before a stop. -/
theorem Respaced.refl {post : List Char} (h : Stops post) (cursor : Cursor) :
    Respaced post cursor.rest cursor.rest := by
  induction cursor using Cursor.induction with
  | atEnd cursor hend =>
    have hblank := forall_of_dropWhile_eq_nil ((Cursor.next_kind_eq_endOfFile_iff cursor).mp hend)
    exact .of_blanks hblank hblank
  | step cursor hend ih =>
    obtain ⟨bs, c, cs, hrest, hbs, hc, hscan, -⟩ := Cursor.exists_step hend
    rw [hrest]
    exact .blanks_left hbs (.blanks_right hbs (.token hc hscan (Sees.append h _) ih))

/-- Before a stop a text is read as its tokens, apart from the places of these. -/
theorem Lexes.of_lex {s : String} {ts : List Token} {post : List Char}
    (hlex : lex s = ts ++ [Cursor.endToken s.toList]) (hpost : Stops post) :
    Lexes (fun us => us.map Token.unplaced = ts.map Token.unplaced) s.toList post := by
  obtain ⟨ws, hfirst, hsecond⟩ := (Respaced.refl hpost (Cursor.ofString s)).exists_tokens
  obtain ⟨us, hus, rfl⟩ := Lexes.lex_eq (s := s) hfirst
  rw [hlex] at hus
  obtain rfl := List.append_cancel_right hus
  exact hsecond

/-- A digit behind a point is in the same token. -/
theorem exists_scan_point {d : Char} (hd : d.isDigit = true) (cs : List Char) :
    ∃ ds, (scan '.' (d :: cs)).2 = '.' :: d :: ds := by
  have hpoint : Char.isDigit '.' = false := by decide
  have hstarts : Literal.starts ('.' :: d :: cs) = true := hd
  refine ⟨cs.takeWhile Char.isDigit ++
    (Exponent.read (cs.dropWhile Char.isDigit)).1.elim [] Exponent.chars, ?_⟩
  rw [scan, if_pos hstarts]
  simp [Literal.read, Literal.chars, Literal.readFraction, hpoint, hd, List.takeWhile,
    List.dropWhile]

/-! ## Blanks put between tokens -/

/-- A text from some offset on, with `gap i` put in before the character at the offset `i`, or at
the end of the text if it is as long. -/
def spread (gap : Nat → List Char) : Nat → List Char → List Char
  | i, [] => gap i
  | i, c :: cs => gap i ++ c :: spread gap (i + 1) cs

/-- An offset is strictly inside a token. -/
def Token.Covers (token : Token) (i : Nat) : Prop :=
  token.offset < i ∧ i < token.offset + token.lexeme.length

/-- A digit behind a point is strictly inside a token. -/
theorem Cursor.exists_covers_point {cursor : Cursor} {d : Char} {xs : List Char}
    (hrest : cursor.rest = '.' :: d :: xs) (hd : d.isDigit = true) :
    ∃ token ∈ cursor.tokens, token.Covers (cursor.pos + 1) := by
  have hpoint : Text.isBlank '.' = false := by decide
  have hdrop : cursor.rest.dropWhile Text.isBlank = '.' :: d :: xs := by
    rw [hrest, List.dropWhile_cons, hpoint]
    rfl
  have hnone : cursor.rest.takeWhile Text.isBlank = [] := by
    rw [hrest, List.takeWhile_cons, hpoint]
    rfl
  have hnext := next_of_cons hdrop
  have hend : cursor.next.1.kind ≠ .endOfFile := by
    rw [hnext]
    exact scan_ne_endOfFile _ _
  refine ⟨cursor.next.1, ?_, ?_⟩
  · rw [tokens_eq, if_neg hend]
    exact List.mem_cons_self
  · obtain ⟨ds, hds⟩ := exists_scan_point hd xs
    rw [hnext, hds, hnone]
    refine ⟨Nat.lt_succ_self _, ?_⟩
    show cursor.pos + 1 < cursor.pos + 0 + (String.ofList ('.' :: d :: ds)).length
    rw [String.length_ofList, List.length_cons, List.length_cons]
    omega

section

variable {gap : Nat → List Char}

/-- If there is nothing to put in between some characters, they are still together. -/
theorem spread_append (i : Nat) (c : Char) (cs xs : List Char)
    (h : ∀ j, i < j → j < i + (c :: cs).length → gap j = []) :
    spread gap i (c :: cs ++ xs) = gap i ++ (c :: cs ++ spread gap (i + (c :: cs).length) xs) := by
  induction cs generalizing i c with
  | nil => rfl
  | cons d cs ih =>
    have hnext : gap (i + 1) = [] := h (i + 1) (by omega) (by simp)
    have hrest := ih (i + 1) d fun j hj hlt =>
      h j (by omega) (by simp only [List.length_cons] at hlt ⊢; omega)
    rw [List.cons_append, spread, hrest, hnext, List.nil_append]
    simp only [List.length_cons, List.cons_append, Nat.add_comm, Nat.add_left_comm]

variable (hblank : ∀ i, ∀ c ∈ gap i, Text.isBlank c = true)
include hblank

/-- Blanks among blanks come before the rest. -/
theorem exists_spread_blanks (i : Nat) {bs : List Char} (hbs : ∀ c ∈ bs, Text.isBlank c = true)
    (xs : List Char) : ∃ ds, (∀ c ∈ ds, Text.isBlank c = true) ∧
      spread gap i (bs ++ xs) = ds ++ spread gap (i + bs.length) xs := by
  induction bs generalizing i with
  | nil => exact ⟨[], by simp, rfl⟩
  | cons b bs ih =>
    obtain ⟨ds, hds, hspread⟩ := ih (i + 1) fun c hc => hbs c (List.mem_cons_of_mem b hc)
    refine ⟨gap i ++ b :: ds, ?_, ?_⟩
    · intro c hc
      simp only [List.mem_append, List.mem_cons] at hc
      rcases hc with hc | rfl | hc
      · exact hblank i c hc
      · exact hbs c List.mem_cons_self
      · exact hds c hc
    · rw [List.cons_append, spread, hspread, List.length_cons, List.append_assoc, List.cons_append,
        Nat.add_right_comm, Nat.add_assoc]

/-- Up to the first blank that is put in, a text shows what it showed. -/
theorem seen_spread (i : Nat) (xs : List Char) : ∀ p, p <+: spread gap i xs →
    (∀ c ∈ p, ¬IsStop c) → p <+: xs := by
  induction xs generalizing i with
  | nil =>
    intro p hp hstop
    cases p with
    | nil => exact List.nil_prefix
    | cons c p =>
      have hc := hblank i c (hp.subset List.mem_cons_self)
      exact absurd (.inr (.inr hc)) (hstop c List.mem_cons_self)
  | cons d xs ih =>
    intro p hp hstop
    cases p with
    | nil => exact List.nil_prefix
    | cons c p =>
      rw [spread] at hp
      cases hgap : gap i with
      | cons b bs =>
        -- The first character is a blank that was put in.
        rw [hgap, List.cons_append, List.cons_prefix_cons] at hp
        have hb := hblank i b (by rw [hgap]; exact List.mem_cons_self)
        exact absurd (.inr (.inr (hp.1 ▸ hb))) (hstop c List.mem_cons_self)
      | nil =>
        rw [hgap, List.nil_append, List.cons_prefix_cons] at hp
        obtain ⟨rfl, hp⟩ := hp
        exact (List.prefix_cons_inj c).mpr
          (ih (i + 1) p hp fun e he => hstop e (List.mem_cons_of_mem c he))

/-- If something is put in first, the text stops there. -/
theorem stops_spread {i : Nat} (h : gap i ≠ []) (xs : List Char) : Stops (spread gap i xs) := by
  intro c hc
  obtain ⟨b, bs, hgap⟩ := List.exists_cons_of_ne_nil h
  have hb := hblank i b (by rw [hgap]; exact List.mem_cons_self)
  have hhead : some b = some c := by
    cases xs with
    | nil => simpa [spread, hgap] using hc
    | cons d xs => simpa [spread, hgap] using hc
  exact Option.some.inj hhead ▸ .inr (.inr hb)

omit hblank in
/-- A literal that starts a text still does if nothing is put in before it. -/
theorem starts_spread {cursor : Cursor} (hstarts : Literal.starts cursor.rest = true)
    (hfirst : gap cursor.pos = [])
    (hgap : ∀ token ∈ cursor.tokens, ∀ i, token.Covers i → gap i = []) :
    Literal.starts (spread gap cursor.pos cursor.rest) = true := by
  cases hrest : cursor.rest with
  | nil =>
    rw [hrest] at hstarts
    cases hstarts
  | cons c xs =>
    rw [hrest] at hstarts
    by_cases hpoint : c = '.'
    · subst hpoint
      cases xs with
      | nil => exact absurd hstarts (by decide)
      | cons d xs =>
        have hd : d.isDigit = true := hstarts
        obtain ⟨token, htoken, hcovers⟩ := Cursor.exists_covers_point hrest hd
        rw [spread, spread, hfirst, hgap token htoken _ hcovers]
        exact hd
    · have hd : c.isDigit = true := by simpa [Literal.starts, hpoint] using hstarts
      rw [spread, hfirst]
      simp [Literal.starts, hpoint, hd]

/-- Blanks that are put in at offsets that are not inside a token come between the tokens. -/
theorem Respaced.spread (cursor : Cursor)
    (hgap : ∀ token ∈ cursor.tokens, ∀ i, token.Covers i → gap i = []) :
    Respaced [] cursor.rest (spread gap cursor.pos cursor.rest) := by
  induction cursor using Cursor.induction with
  | atEnd cursor hend =>
    have hrest := forall_of_dropWhile_eq_nil ((Cursor.next_kind_eq_endOfFile_iff cursor).mp hend)
    obtain ⟨ds, hds, hspread⟩ := exists_spread_blanks hblank cursor.pos hrest []
    rw [List.append_nil] at hspread
    refine .of_blanks hrest fun c hc => ?_
    rw [hspread, List.mem_append] at hc
    rcases hc with hc | hc
    · exact hds c hc
    · exact hblank _ c hc
  | step cursor hend ih =>
    obtain ⟨bs, c, cs, hrest, hbs, hc, hscan, hlexeme, hoffset, hpos⟩ := Cursor.exists_step hend
    have htokens : cursor.tokens = cursor.next.1 :: cursor.next.2.tokens := by
      rw [Cursor.tokens_eq, if_neg hend]
    have hgap' : ∀ token ∈ cursor.next.2.tokens, ∀ i, token.Covers i → gap i = [] := by
      intro token htoken
      exact hgap token (by rw [htokens]; exact List.mem_cons_of_mem _ htoken)
    have ih := ih hgap'
    -- Nothing is put in strictly inside the token.
    have hinside : ∀ j, cursor.pos + bs.length < j →
        j < cursor.pos + bs.length + (c :: cs).length → gap j = [] := by
      intro j hj hlt
      refine hgap cursor.next.1 (by rw [htokens]; exact List.mem_cons_self) j ⟨?_, ?_⟩
      · rw [hoffset]
        exact hj
      · rw [hoffset, hlexeme, String.length_ofList]
        exact hlt
    obtain ⟨ds, hds, hspread⟩ :=
      exists_spread_blanks hblank cursor.pos hbs (c :: cs ++ cursor.next.2.rest)
    rw [← hrest, spread_append _ _ _ _ hinside, ← hpos] at hspread
    have hsees : Sees cursor.next.2.rest
        (LineCalc.spread gap cursor.next.2.pos cursor.next.2.rest) := by
      refine ⟨seen_spread hblank _ _, ?_⟩
      by_cases hfirst : gap cursor.next.2.pos = []
      · exact .inr fun hstarts => starts_spread hstarts hfirst hgap'
      · exact .inl (stops_spread hblank hfirst _)
    rw [hspread, hrest]
    refine .blanks_left hbs (.blanks_right hds (.blanks_right (hblank _) (.token hc hscan ?_ ih)))
    rw [List.append_nil]
    exact hsees

end

/-- A text has the same tokens, apart from their places, if blanks are put in at any offsets that
are not strictly inside a token. -/
theorem lex_spread {s : String} {gap : Nat → List Char}
    (hblank : ∀ i, ∀ c ∈ gap i, Text.isBlank c = true)
    (hgap : ∀ token ∈ lex s, ∀ i, token.Covers i → gap i = []) :
    (lex (String.ofList (spread gap 0 s.toList))).map Token.unplaced =
      (lex s).map Token.unplaced := by
  have hspread := Respaced.spread hblank (Cursor.ofString s) hgap
  refine Respaced.lex_eq ?_
  rw [String.toList_ofList]
  exact hspread

/-! ## One space between tokens -/

/-- The characters of the tokens with one space between each and the next differ from the text in
blanks. -/
theorem Respaced.intercalate (cursor : Cursor) : ∀ ts : List Token,
    cursor.tokens = ts ++ [Cursor.endToken cursor.source] →
      Respaced [] cursor.rest ([' '].intercalate (ts.map fun token => token.lexeme.toList)) := by
  induction cursor using Cursor.induction with
  | atEnd cursor hend =>
    rw [Cursor.next_kind_eq_endOfFile_iff] at hend
    intro ts hts
    rw [Cursor.tokens_of_blank hend] at hts
    obtain rfl : ts = [] := by simpa using hts
    exact .of_blanks (forall_of_dropWhile_eq_nil hend) nofun
  | step cursor hend ih =>
    intro ts hts
    obtain ⟨bs, c, cs, hrest, hbs, hc, hscan, hlexeme, -⟩ := Cursor.exists_step hend
    rw [Cursor.tokens_eq, if_neg hend] at hts
    obtain ⟨us, hus, -⟩ := cursor.next.2.tokens_eq_append
    rw [Cursor.next_source] at hus
    obtain rfl : ts = cursor.next.1 :: us := by
      rw [hus, ← List.cons_append] at hts
      exact (List.append_cancel_right hts).symm
    have ih := ih us (by rw [hus, Cursor.next_source])
    -- Behind the token comes a space, or nothing if it is the last one.
    obtain ⟨ys, hys, hstops, hjoined⟩ : ∃ ys, Respaced [] cursor.next.2.rest ys ∧ Stops ys ∧
        [' '].intercalate ((cursor.next.1 :: us).map fun token => token.lexeme.toList) =
          c :: cs ++ ys := by
      have hspace : Text.isBlank ' ' = true := by decide
      cases us with
      | nil => exact ⟨[], ih, nofun, by simp [hlexeme]⟩
      | cons token us =>
        refine ⟨_, .right hspace ih, fun d hd => .inr (.inr (Option.some.inj hd ▸ hspace)), ?_⟩
        simp [List.intercalate_cons_cons, hlexeme]
    rw [hjoined, hrest]
    refine .blanks_left hbs (.token hc hscan (.of_stops ?_) hys)
    rwa [List.append_nil]

/-- The tokens of a text with one space between each and the next are the same tokens, apart from
their places. -/
theorem lex_intercalate {s : String} {ts : List Token}
    (hlex : lex s = ts ++ [Cursor.endToken s.toList]) :
    (lex (" ".intercalate (ts.map Token.lexeme))).map Token.unplaced =
      (lex s).map Token.unplaced := by
  have hjoined := Respaced.intercalate (Cursor.ofString s) ts hlex
  refine Respaced.lex_eq ?_
  rw [String.toList_intercalate, List.map_map]
  exact hjoined

end LineCalc
