import LineCalc.Proofs.Lexing.Spacing

/-!
# Tokens divide the text

A cursor that is read again and again gives tokens, finitely many that are not the end of the file
and then that one for ever. The tokens are pieces of the text, in order and apart from each other,
and what is between them is blank (`Partition`). Each read leaves the cursor at the end of its
token, and so the pieces of a text are those that its rest is made of: one read puts one token
before a partition of what it leaves (`Partition.step`), and at the end of the text the partition
is empty (`Partition.zero`).
-/

namespace LineCalc

/-! ## No blank is part of a token -/

/-- A blank is a stop. -/
theorem IsStop.of_isBlank {c : Char} (h : Text.isBlank c = true) : IsStop c :=
  .inr (.inr h)

/-- The characters of a literal are digits, points, signs and the letters of exponents. -/
theorem Literal.WellFormed.mem_chars {l : Literal} (h : l.WellFormed) {c : Char}
    (hc : c ∈ l.chars) : c.isDigit = true ∨ c ∈ ['.', '+', '-', 'e', 'E'] := by
  rw [Literal.chars, List.mem_append, List.mem_append] at hc
  rcases hc with (hwhole | hfraction) | hexponent
  · exact .inl (h.whole c hwhole)
  · cases hl : l.fraction with
    | none =>
      rw [hl] at hfraction
      cases hfraction
    | some ds =>
      rw [hl] at hfraction
      rcases List.mem_cons.mp hfraction with rfl | hds
      · exact .inr (by decide)
      · exact .inl (h.fraction ds hl c hds)
  · cases hl : l.exponent with
    | none =>
      rw [hl] at hexponent
      cases hexponent
    | some e =>
      have he := h.exponent e hl
      rw [hl] at hexponent
      rcases List.mem_cons.mp hexponent with rfl | hrest
      · rcases he.letter with hletter | hletter <;> simp [hletter]
      · rcases List.mem_append.mp hrest with hsign | hdigits
        · rcases he.sign c (Option.mem_toList.mp hsign) with rfl | rfl <;> exact .inr (by decide)
        · exact .inl (he.digits c hdigits)

/-- A run of unknown characters reaches to the first place where something ends it. -/
theorem unknownRun_stops (cs : List Char) :
    (∀ i < (unknownRun cs).length, ∀ d, cs[i]? = some d →
        endsUnknown d (cs.drop (i + 1)) = false) ∧
      ∀ d, cs[(unknownRun cs).length]? = some d →
        endsUnknown d (cs.drop ((unknownRun cs).length + 1)) = true := by
  induction cs with
  | nil => exact ⟨fun i hi => absurd hi (Nat.not_lt_zero i), fun d hd => by cases hd⟩
  | cons c cs ih =>
    rw [unknownRun]
    split
    · next hends =>
      refine ⟨fun i hi => absurd hi (Nat.not_lt_zero i), fun d hd => ?_⟩
      obtain rfl := Option.some.inj hd
      exact hends
    · next hends =>
      refine ⟨fun i hi d hd => ?_, fun d hd => ih.2 d hd⟩
      cases i with
      | zero =>
        obtain rfl := Option.some.inj hd
        exact Bool.eq_false_iff.mpr hends
      | succ i => exact ih.1 i (Nat.lt_of_succ_lt_succ hi) d hd

/-- Nothing in a run of unknown characters ends it. -/
theorem exists_not_endsUnknown {d : Char} {cs : List Char} (hd : d ∈ unknownRun cs) :
    ∃ ds, endsUnknown d ds = false := by
  obtain ⟨i, hi, hget⟩ := List.getElem_of_mem hd
  obtain ⟨rest, hrest⟩ := unknownRun_isPrefix cs
  have hcs : cs[i]? = some d := by
    rw [← hrest, List.getElem?_append_left hi, List.getElem?_eq_getElem hi, hget]
  exact ⟨_, (unknownRun_stops cs).1 i hi d hcs⟩

/-- No character of a run of unknown characters is blank. -/
theorem isBlank_of_mem_unknownRun {d : Char} {cs : List Char} (hd : d ∈ unknownRun cs) :
    Text.isBlank d = false := by
  obtain ⟨ds, hends⟩ := exists_not_endsUnknown hd
  rw [Bool.eq_false_iff]
  intro hblank
  rw [(IsStop.of_isBlank hblank).endsUnknown ds] at hends
  cases hends

/-- A token that starts at a character that is not blank has no blank in it. -/
theorem isBlank_of_mem_scan {c : Char} (hc : Text.isBlank c = false) {cs : List Char} {d : Char}
    (hd : d ∈ (scan c cs).2) : Text.isBlank d = false := by
  unfold scan at hd
  split at hd
  · -- A blank is neither a digit nor one of the other characters of a literal.
    next hstarts =>
    rw [Bool.eq_false_iff]
    intro hblank
    have hstop := IsStop.of_isBlank hblank
    rcases (Literal.wellFormed_read hstarts).mem_chars hd with hdigit | hmem
    · exact absurd hdigit (by rw [hstop.not_isDigit]; decide)
    · exact hstop.not_mem hmem
  · split at hd
    · rcases List.mem_cons.mp hd with rfl | hd
      · exact hc
      · have hword := List.all_eq_true.mp List.all_takeWhile d hd
        rw [Bool.eq_false_iff]
        intro hblank
        rw [(IsStop.of_isBlank hblank).not_isWordChar] at hword
        cases hword
    · split at hd
      · rwa [List.mem_singleton.mp hd]
      · rcases List.mem_cons.mp hd with rfl | hd
        · exact hc
        · exact isBlank_of_mem_unknownRun hd

/-! ## Reading again and again -/

/-- The offset behind the last character of a token. -/
def Token.stop (token : Token) : Nat :=
  token.offset + token.lexeme.length

/-- A token is a piece of a text: it has characters, none of them blank, and the text has them at
its offset. -/
structure Token.IsPiece (source : List Char) (token : Token) : Prop where
  kind : token.kind ≠ .endOfFile
  nonempty : token.lexeme ≠ ""
  lexeme : token.lexeme.toList = (source.drop token.offset).take token.lexeme.length
  notBlank : ∀ c ∈ token.lexeme.toList, Text.isBlank c = false
  stop_le : token.stop ≤ source.length

namespace Cursor

/-- The cursor after some reads. -/
def after (cursor : Cursor) : Nat → Cursor
  | 0 => cursor
  | k + 1 => (cursor.after k).next.2

/-- The token that is read after some reads. -/
def token (cursor : Cursor) (k : Nat) : Token :=
  (cursor.after k).next.1

/-- The first `count` tokens that are read divide the text from the cursor on, and nothing but the
end of the file is read after them. -/
structure Partition (cursor : Cursor) (count : Nat) : Prop where
  /-- There are no more tokens than characters. -/
  count_le : count ≤ cursor.source.length - cursor.pos
  /-- The tokens are all that is read before the end of the file. -/
  tokens : cursor.tokens = (List.range (count + 1)).map cursor.token
  /-- They are pieces of the text. -/
  piece : ∀ k < count, (cursor.token k).IsPiece cursor.source
  /-- From then on every token is the end of the file. -/
  atEnd : ∀ k, count ≤ k → cursor.token k = endToken cursor.source
  /-- No token starts before the cursor. -/
  behind : ∀ k < count, cursor.pos ≤ (cursor.token k).offset
  /-- A token starts where an earlier one has ended, or behind that. -/
  ordered : ∀ j k, j < k → k < count → (cursor.token j).stop ≤ (cursor.token k).offset
  /-- Each read leads to the end of its token. -/
  pos : ∀ k, (cursor.after (k + 1)).pos = (cursor.token k).stop
  /-- A character behind the place of the cursor is in a token, or it is blank. -/
  covered : ∀ i c, cursor.pos ≤ i → cursor.source[i]? = some c →
    (∃ k < count, (cursor.token k).offset ≤ i ∧ i < (cursor.token k).stop) ∨
      Text.isBlank c = true

section

variable {cursor : Cursor}

/-- Some reads and one more are one read and then as many. -/
theorem after_succ (cursor : Cursor) (k : Nat) : cursor.after (k + 1) = cursor.next.2.after k := by
  induction k with
  | zero => rfl
  | succ k ih => rw [after, ih, after]

/-- The tokens behind the first are those that are read from where the first read has led. -/
theorem token_succ (cursor : Cursor) (k : Nat) : cursor.token (k + 1) = cursor.next.2.token k := by
  rw [token, after_succ, token]

/-- What holds of the first token and of those behind it holds of all. -/
theorem forall_token {P : Token → Prop} {count : Nat} (hfirst : P cursor.next.1)
    (h : ∀ k < count, P (cursor.next.2.token k)) : ∀ k < count + 1, P (cursor.token k) := by
  rintro (- | k) hk
  · exact hfirst
  · rw [token_succ]
    exact h k (Nat.lt_of_succ_lt_succ hk)

/-- A read leads to the end of its token. -/
theorem pos_next (cursor : Cursor) : cursor.next.2.pos = cursor.next.1.stop := by
  by_cases hend : cursor.next.1.kind = .endOfFile
  · rw [next_of_blank ((next_kind_eq_endOfFile_iff cursor).mp hend)]
    rfl
  · obtain ⟨bs, c, cs, -, -, -, -, hlexeme, hoffset, hpos⟩ := exists_step hend
    rw [Token.stop, hpos, hoffset, hlexeme, String.length_ofList]

/-- A token is behind the cursor, and what is between them is blank. -/
theorem offset_next (hend : cursor.next.1.kind ≠ .endOfFile) :
    cursor.pos ≤ cursor.next.1.offset ∧
      ∀ i c, cursor.pos ≤ i → i < cursor.next.1.offset → cursor.source[i]? = some c →
        Text.isBlank c = true := by
  obtain ⟨bs, c, cs, hrest, hbs, -, -, -, hoffset, -⟩ := exists_step hend
  rw [hoffset]
  refine ⟨Nat.le_add_right _ _, fun i d hi hbefore hd => ?_⟩
  have hget : cursor.rest[i - cursor.pos]? = some d := by
    rw [rest, List.getElem?_drop, Nat.add_sub_cancel' hi, hd]
  rw [hrest, List.getElem?_append_left (by omega)] at hget
  exact hbs d (List.mem_of_getElem? hget)

/-- What is read before the end of a text is a piece of it. -/
theorem isPiece_next (hend : cursor.next.1.kind ≠ .endOfFile) :
    cursor.next.1.IsPiece cursor.source := by
  obtain ⟨bs, c, cs, hrest, -, hc, hscan, hlexeme, hoffset, -⟩ := exists_step hend
  have hchars : cursor.next.1.lexeme.toList = c :: cs := by rw [hlexeme, String.toList_ofList]
  have hcount : cursor.next.1.lexeme.length = (c :: cs).length := by
    rw [← String.length_toList, hchars]
  -- From its offset on the text is the token and what is left behind it.
  have hdrop : cursor.source.drop cursor.next.1.offset = c :: cs ++ cursor.next.2.rest := by
    rw [hoffset, ← List.drop_drop]
    show cursor.rest.drop bs.length = _
    rw [hrest, List.drop_left]
  refine ⟨hend, ?_, ?_, ?_, ?_⟩
  · rw [hlexeme, Ne, ← String.toList_inj, String.toList_ofList]
    exact List.cons_ne_nil c cs
  · rw [hchars, hcount, hdrop, List.take_left]
  · rw [hchars]
    exact fun d hd => isBlank_of_mem_scan hc (hscan ▸ hd)
  · have hlength := congrArg List.length hdrop
    rw [List.length_drop, List.length_append, List.length_cons] at hlength
    rw [Token.stop, hcount, List.length_cons]
    omega

namespace Partition

/-- At the end of a text there is nothing to divide. -/
theorem zero (hend : cursor.next.1.kind = .endOfFile) : Partition cursor 0 := by
  have hblank := (next_kind_eq_endOfFile_iff cursor).mp hend
  have hnext := next_of_blank hblank
  have hagain : cursor.atEnd.next = (endToken cursor.source, cursor.atEnd) :=
    next_of_blank (by rw [rest_atEnd]; rfl)
  -- The first read leads to the end, where the others stay.
  have hstays : ∀ k, cursor.after (k + 1) = cursor.atEnd := by
    intro k
    induction k with
    | zero => rw [after, after, hnext]
    | succ k ih => rw [after, ih, hagain]
  have hends : ∀ k, cursor.token k = endToken cursor.source := by
    intro k
    cases k with
    | zero => rw [token, after, hnext]
    | succ k => rw [token, hstays, hagain]
  constructor
  case count_le => exact Nat.zero_le _
  case tokens => rw [tokens_of_blank hblank, List.range_one, List.map_singleton, hends]
  case piece => exact nofun
  case atEnd => exact fun k _ => hends k
  case behind => exact nofun
  case ordered => exact nofun
  case pos =>
    intro k
    rw [hstays, hends]
    rfl
  case covered =>
    intro i c hi hc
    have hget : cursor.rest[i - cursor.pos]? = some c := by
      rw [rest, List.getElem?_drop, Nat.add_sub_cancel' hi, hc]
    exact .inr (forall_of_dropWhile_eq_nil hblank c (List.mem_of_getElem? hget))

/-- A token is put before a partition of what is left behind it. -/
theorem step (hend : cursor.next.1.kind ≠ .endOfFile) {count : Nat}
    (h : Partition cursor.next.2 count) : Partition cursor (count + 1) := by
  have hsource := next_source cursor
  have hpos := pos_next cursor
  obtain ⟨hbehind, hblank⟩ := offset_next hend
  have hpiece := isPiece_next hend
  have hsome : 0 < cursor.next.1.lexeme.length :=
    Nat.pos_of_ne_zero fun hzero => hpiece.nonempty (String.length_eq_zero_iff.mp hzero)
  have hstop : cursor.next.1.offset < cursor.next.1.stop := Nat.lt_add_of_pos_right hsome
  constructor
  case count_le =>
    have hle := h.count_le
    have hinside := hpiece.stop_le
    rw [hsource, hpos] at hle
    omega
  case tokens =>
    have hshift : (List.range (count + 1)).map cursor.next.2.token =
        (List.range (count + 1)).map fun k => cursor.token (k + 1) :=
      List.map_congr_left fun k _ => (token_succ cursor k).symm
    have hrange := @List.range_succ_eq_map (count + 1)
    rw [tokens_eq, if_neg hend, h.tokens, hshift, hrange, List.map_cons, List.map_map]
    rfl
  -- What holds of the first token and of those of the rest holds of all.
  case piece => exact forall_token hpiece (hsource ▸ h.piece)
  case atEnd =>
    rintro (- | k) hk
    · cases hk
    · rw [token_succ, h.atEnd k (Nat.le_of_succ_le_succ hk), hsource]
  case behind =>
    refine forall_token (P := fun token => cursor.pos ≤ token.offset) hbehind fun k hk => ?_
    have hlater := h.behind k hk
    omega
  -- The second token is behind the first one, since it is behind the place where that ends.
  case ordered =>
    rintro (- | j) (- | k) hjk hk
    · cases hjk
    · rw [token_succ]
      exact hpos ▸ h.behind k (Nat.lt_of_succ_lt_succ hk)
    · cases hjk
    · rw [token_succ, token_succ]
      exact h.ordered j k (Nat.lt_of_succ_lt_succ hjk) (Nat.lt_of_succ_lt_succ hk)
  case pos =>
    rintro (- | k)
    · exact hpos
    · rw [after_succ, token_succ]
      exact h.pos k
  case covered =>
    intro i c hi hc
    by_cases hbefore : i < cursor.next.1.offset
    · exact .inr (hblank i c hi hbefore hc)
    · by_cases hin : i < cursor.next.1.stop
      · exact .inl ⟨0, Nat.succ_pos _, Nat.le_of_not_lt hbefore, hin⟩
      · -- Behind the token the partition of the rest tells.
        rcases h.covered i c (by omega) (by rw [hsource, hc]) with ⟨k, hk, hspan⟩ | hc
        · refine .inl ⟨k + 1, Nat.succ_lt_succ hk, ?_⟩
          rw [token_succ]
          exact hspan
        · exact .inr hc

end Partition

end

/-- Every cursor has a partition of the text from it on. -/
theorem exists_partition (cursor : Cursor) : ∃ count, Partition cursor count := by
  induction cursor using Cursor.induction with
  | atEnd cursor hend => exact ⟨0, Partition.zero hend⟩
  | step cursor hend ih =>
    obtain ⟨count, h⟩ := ih
    exact ⟨count + 1, h.step hend⟩

/-- What is read from a text before its end are pieces of it. -/
theorem isPiece_of_mem {cursor : Cursor} {token : Token} (htoken : token ∈ cursor.tokens)
    (hkind : token.kind ≠ .endOfFile) : token.IsPiece cursor.source := by
  obtain ⟨count, h⟩ := cursor.exists_partition
  rw [h.tokens] at htoken
  obtain ⟨k, -, rfl⟩ := List.mem_map.mp htoken
  by_cases hk : k < count
  · exact h.piece k hk
  · rw [h.atEnd k (Nat.le_of_not_lt hk)] at hkind
    exact absurd rfl hkind

/-- Of blanks nothing is left when the blanks are taken out. -/
theorem filter_of_blank {cs : List Char} (h : ∀ c ∈ cs, Text.isBlank c = true) :
    (cs.filter fun c => !Text.isBlank c) = [] := by
  rw [List.filter_eq_nil_iff]
  intro c hc
  simp [h c hc]

/-- The characters of the tokens are those of the text from the cursor on that are not blank. -/
theorem flatMap_tokens (cursor : Cursor) :
    (cursor.tokens.flatMap fun token => token.lexeme.toList) =
      cursor.rest.filter fun c => !Text.isBlank c := by
  induction cursor using Cursor.induction with
  | atEnd cursor hend =>
    have hblank := (next_kind_eq_endOfFile_iff cursor).mp hend
    rw [tokens_of_blank hblank, filter_of_blank (forall_of_dropWhile_eq_nil hblank)]
    rfl
  | step cursor hend ih =>
    obtain ⟨bs, c, cs, hrest, hbs, hc, hscan, hlexeme, -⟩ := exists_step hend
    have hall : ((c :: cs).filter fun c => !Text.isBlank c) = c :: cs := by
      rw [List.filter_eq_self]
      intro d hd
      simp [isBlank_of_mem_scan hc (hscan ▸ hd)]
    rw [tokens_eq, if_neg hend, List.flatMap_cons, ih, hlexeme, String.toList_ofList, hrest,
      List.filter_append, List.filter_append, filter_of_blank hbs, hall, List.nil_append]

end Cursor

/-- The tokens that are read from any place of a text divide it from there on, and the lexemes of
a whole text make up all of it but its blanks. -/
theorem lex_partition (source : String) :
    (∀ p, ∃ count, Cursor.Partition ⟨source.toList, p⟩ count) ∧
      String.join ((lex source).map Token.lexeme) =
        String.ofList (source.toList.filter fun c => !Text.isBlank c) := by
  refine ⟨fun p => Cursor.exists_partition _, ?_⟩
  have hchars := (Cursor.ofString source).flatMap_tokens
  rw [← String.toList_inj, String.toList_ofList, String.toList_join, List.flatMap_map]
  exact hchars

end LineCalc
