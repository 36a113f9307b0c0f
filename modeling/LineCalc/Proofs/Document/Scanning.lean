import LineCalc.Proofs.Document.Hovering

/-!
# Scanning for the word at a column

An editor's server that knows no tokens looks for the word at a column by reading one character of
the row after the other: the one at the column, which may be a symbol, those before it as long as
they are characters of words, and those from it on. `scanWord` is this search, with reads that fail
outside of the row. The first read and those to the right are made only inside of the row, those to
the left wherever the column is. So the search fails exactly if the column is behind the end of the
row, and otherwise finds the word that `wordInLine` describes (`scanWord_eq`). A hover is answered
accordingly (`Session.hover_answered_iff`).
-/

namespace LineCalc.Document

/-! ## Reading characters -/

/-- The character at a column. Outside of the row there is none to be read. -/
def charAt (row : List Char) (column : Nat) : Except PositionError Char :=
  match row[column]? with
  | some c => .ok c
  | none => .error .columnOutOfRange

/-- The symbol at a column, if there is one. Behind the row nothing is read. -/
def scanSymbol (row : List Char) (column : Nat) : Except PositionError (Option Char) :=
  if column < row.length then do
    let c ← charAt row column
    return if isSymbol c then some c else none
  else return none

/-- Where the characters of words start that end before a column. The character before the column is
read in any case. -/
def scanLeft (row : List Char) : Nat → Except PositionError Nat
  | 0 => return 0
  | column + 1 => do
    if Text.isWordChar (← charAt row column) then scanLeft row column else return column + 1

/-- Where the characters of words stop that start at a column. Behind the row nothing is read. -/
def scanRight (row : List Char) (column : Nat) : Except PositionError Nat :=
  if column < row.length then do
    if Text.isWordChar (← charAt row column) then scanRight row (column + 1) else return column
  else return column
termination_by row.length - column

/-- The symbol at a column, or else the characters of words around it. -/
def scanWord (row : List Char) (column : Nat) : Except PositionError (List Char) := do
  match ← scanSymbol row column with
  | some c => return [c]
  | none =>
    let start ← scanLeft row column
    let stop ← scanRight row column
    return (row.take stop).drop start

section

variable {row : List Char} {column : Nat}

/-- Inside of a row a character can be read. -/
theorem charAt_of_lt (h : column < row.length) : charAt row column = .ok row[column] := by
  unfold charAt
  rw [List.getElem?_eq_getElem h]

/-- Behind a row no character can be read. -/
theorem charAt_of_le (h : row.length ≤ column) : charAt row column = .error .columnOutOfRange := by
  unfold charAt
  rw [List.getElem?_eq_none h]

/-! ## The three parts of the search -/

/-- The look at the column itself never fails. -/
theorem scanSymbol_eq (row : List Char) (column : Nat) :
    scanSymbol row column = .ok (row[column]?.filter isSymbol) := by
  unfold scanSymbol
  by_cases h : column < row.length
  · rw [if_pos h, charAt_of_lt h, List.getElem?_eq_getElem h]
    rfl
  · rw [if_neg h, List.getElem?_eq_none (Nat.le_of_not_lt h)]
    rfl

/-- Behind the row the search to the left fails at its first read. -/
theorem scanLeft_of_lt (h : row.length < column) :
    scanLeft row column = .error .columnOutOfRange := by
  obtain ⟨before, rfl⟩ := Nat.exists_eq_add_one_of_ne_zero (Nat.ne_zero_of_lt h)
  rw [scanLeft, charAt_of_le (Nat.le_of_lt_succ h)]
  rfl

/-- Up to the end of the row the search to the left passes the characters of words before the
column. -/
theorem scanLeft_eq (h : column ≤ row.length) : scanLeft row column =
    .ok (column - ((row.take column).reverse.takeWhile Text.isWordChar).length) := by
  induction column with
  | zero => rfl
  | succ column ih =>
    have hlast : (row.take (column + 1)).reverse = row[column] :: (row.take column).reverse := by
      rw [List.take_add_one, List.getElem?_eq_getElem h, Option.toList_some, List.reverse_concat]
    rw [scanLeft, charAt_of_lt h, hlast, List.takeWhile_cons]
    show (if Text.isWordChar row[column] = true then scanLeft row column else .ok (column + 1)) = _
    split
    · rw [ih (Nat.le_of_succ_le h), List.length_cons, Nat.add_sub_add_right]
    · rfl

/-- The search to the right passes the characters of words from the column on. -/
theorem scanRight_eq (row : List Char) (column : Nat) : scanRight row column =
    .ok (column + ((row.drop column).takeWhile Text.isWordChar).length) := by
  fun_induction scanRight row column with
  | case1 column h ih =>
    rw [charAt_of_lt h, List.drop_eq_getElem_cons h, List.takeWhile_cons]
    show (if Text.isWordChar row[column] = true then scanRight row (column + 1)
      else .ok column) = _
    split
    · rw [ih, List.length_cons, Nat.add_right_comm, Nat.add_assoc]
    · rfl
  | case2 column h =>
    rw [List.drop_eq_nil_of_le (Nat.le_of_not_lt h)]
    rfl

/-- The columns between the ends of the search are those of the word. -/
theorem drop_take_eq (p : Char → Bool) (h : column ≤ row.length) :
    (row.take (column + ((row.drop column).takeWhile p).length)).drop
        (column - ((row.take column).reverse.takeWhile p).length) =
      ((row.take column).reverse.takeWhile p).reverse ++ (row.drop column).takeWhile p := by
  have hleft : ((row.take column).reverse.takeWhile p).length ≤ column := by
    have hle := (List.takeWhile_prefix p (l := (row.take column).reverse)).length_le
    rwa [List.length_reverse, List.length_take, Nat.min_eq_left h] at hle
  have hbefore := List.prefix_iff_eq_take.mp (List.takeWhile_prefix p (l := (row.take column).reverse))
  have hbehind := List.prefix_iff_eq_take.mp (List.takeWhile_prefix p (l := row.drop column))
  generalize (row.take column).reverse.takeWhile p = left at hleft hbefore ⊢
  generalize (row.drop column).takeWhile p = right at hbehind ⊢
  have hdrop : (row.take column).drop (column - left.length) = left.reverse := by
    conv => rhs; rw [hbefore, List.reverse_take, List.reverse_reverse, List.length_reverse,
      List.length_take, Nat.min_eq_left h]
  rw [List.take_add, ← hbehind, List.drop_append_of_le_length, hdrop]
  rw [List.length_take, Nat.min_eq_left h]
  exact Nat.sub_le _ _

/-- The search finds the word at the column, unless the column is behind the end of the row. -/
theorem scanWord_eq (row : List Char) (column : Nat) : scanWord row column =
    if row.length < column then .error .columnOutOfRange else .ok (wordInLine row column) := by
  unfold scanWord wordInLine
  rw [scanSymbol_eq]
  cases hsymbol : row[column]?.filter isSymbol with
  | some c =>
    have hlt : column < row.length := by
      obtain ⟨hget, -⟩ := Option.filter_eq_some_iff.mp hsymbol
      exact (List.getElem?_eq_some_iff.mp hget).1
    rw [if_neg (Nat.not_lt.mpr (Nat.le_of_lt hlt))]
    rfl
  | none =>
    show (do
      let start ← scanLeft row column
      let stop ← scanRight row column
      return (row.take stop).drop start : Except PositionError (List Char)) = _
    by_cases h : row.length < column
    · rw [if_pos h, scanLeft_of_lt h]
      rfl
    · rw [if_neg h, scanLeft_eq (Nat.le_of_not_lt h), scanRight_eq]
      exact congrArg Except.ok (drop_take_eq Text.isWordChar (Nat.le_of_not_lt h))

end

/-! ## Answers to hovers -/

/-- The answer for a word that has been found, which is no word if it is empty. -/
def foundWord (word : List Char) : Option String :=
  if word.isEmpty then none else some (String.ofList word)

/-- The word at a position of a text is found by searching the line, if there is one. -/
theorem wordAt_eq_scanWord (text : String) (line column : Nat) : wordAt text line column =
    match (Text.lines text.toList)[line]? with
    | none => .ok none
    | some row => (scanWord row column).map foundWord := by
  unfold wordAt
  cases (Text.lines text.toList)[line]? with
  | none => rfl
  | some row =>
    dsimp only
    rw [scanWord_eq]
    split <;> rfl

/-- A word is found exactly at the columns of a line up to its end, and nothing is found, without an
error, behind the last line. -/
theorem wordAt_ok_iff (text : String) (line column : Nat) :
    (∃ word, wordAt text line column = .ok word) ↔
      ∀ row, (Text.lines text.toList)[line]? = some row → column ≤ row.length := by
  rw [wordAt_eq_scanWord]
  cases (Text.lines text.toList)[line]? with
  | none => simp
  | some row =>
    dsimp only
    rw [scanWord_eq]
    by_cases h : row.length < column
    · rw [if_pos h]
      constructor
      · rintro ⟨word, hword⟩
        cases hword
      · intro hle
        exact absurd h (Nat.not_lt.mpr (hle row rfl))
    · rw [if_neg h]
      refine ⟨fun _ other hother => ?_, fun _ => ⟨_, rfl⟩⟩
      exact Option.some.inj hother ▸ Nat.le_of_not_lt h

/-- A hover in a document is answered by the meaning of the word at the position, and it fails if the
search for the word does. -/
theorem Session.handle_hover_eq {session : Session} {uri : String} {held : Held}
    (hheld : session.documents.get? uri = some held) (line column : Nat) :
    session.handle (.hover uri line column) =
      (match wordAt held.text line column with
        | .ok word => .hover (word.bind Builtin.signature?)
        | .error error => .failed error, session) := by
  have hhover : session.hover uri line column =
      (wordAt held.text line column).map fun word => word.bind Builtin.signature? := by
    unfold Session.hover
    rw [hheld]
    show (do return (← wordAt held.text line column).bind Builtin.signature?) = _
    cases wordAt held.text line column <;> rfl
  rw [Session.handle, hhover]
  cases wordAt held.text line column <;> rfl

/-- In a document that is held, a hover is answered exactly if its column is not behind the end of
its line, or if there is no such line. The word that is asked for is the one that is found by reading
the characters of the line around the column. Behind the end of the line the first of these reads is
outside of the line, and the hover fails. -/
theorem Session.hover_answered_iff {session : Session} {uri : String} {held : Held}
    (hheld : session.documents.get? uri = some held) (line column : Nat) :
    (wordAt held.text line column =
      match (Text.lines held.text.toList)[line]? with
      | none => .ok none
      | some row => (scanWord row column).map foundWord) ∧
    ((∃ word, wordAt held.text line column = .ok word ∧
        session.handle (.hover uri line column) =
          (.hover (word.bind Builtin.signature?), session)) ↔
      ∀ row, (Text.lines held.text.toList)[line]? = some row → column ≤ row.length) ∧
    ∀ row, (Text.lines held.text.toList)[line]? = some row → row.length < column →
      wordAt held.text line column = .error .columnOutOfRange ∧
        session.handle (.hover uri line column) = (.failed .columnOutOfRange, session) := by
  have hanswer := Session.handle_hover_eq hheld line column
  refine ⟨wordAt_eq_scanWord held.text line column, ?_, fun row hrow hbehind => ?_⟩
  · rw [← wordAt_ok_iff]
    refine exists_congr fun word => ⟨And.left, fun hword => ⟨hword, ?_⟩⟩
    rw [hanswer, hword]
  · have herror : wordAt held.text line column = .error .columnOutOfRange := by
      rw [wordAt_eq_scanWord, hrow]
      dsimp only
      rw [scanWord_eq, if_pos hbehind]
      rfl
    rw [herror] at hanswer
    exact ⟨herror, hanswer⟩

set_option maxRecDepth 4000 in
/-- On a line of a name, a hover at its end is answered for the name, and one column further it
fails. -/
theorem hover_around_end :
    let session := ((Session.ofGroups ["math"]).handle (.hold "file" "sin")).2
    session.documents.get? "file" = some ⟨"sin", Index.ofText session.known "sin"⟩ ∧
      (∃ word, wordAt "sin" 0 3 = .ok word ∧
        session.handle (.hover "file" 0 3) = (.hover (word.bind Builtin.signature?), session)) ∧
      session.handle (.hover "file" 0 4) = (.failed .columnOutOfRange, session) := by
  intro session
  have hheld : session.documents.get? "file" = some ⟨"sin", Index.ofText session.known "sin"⟩ :=
    OrderedMap.get?_insert_self _ _ _
  have hrow : (Text.lines "sin".toList)[0]? = some "sin".toList := by decide
  obtain ⟨-, hinside, -⟩ := Session.hover_answered_iff hheld 0 3
  obtain ⟨-, -, hbehind⟩ := Session.hover_answered_iff hheld 0 4
  refine ⟨hheld, hinside.mpr fun row hsame => ?_, (hbehind _ hrow (by decide)).2⟩
  obtain rfl := Option.some.inj (hrow.symm.trans hsame)
  decide

set_option maxRecDepth 4000 in
/-- Not every hover in a document that is held is answered: one column behind the end of a line there
is no word to be found, and the hover fails. -/
theorem hover_fails_behind_line :
    let session := ((Session.ofGroups ["math"]).handle (.hold "file" "sin()")).2
    session.documents.get? "file" = some ⟨"sin()", Index.ofText session.known "sin()"⟩ ∧
      wordAt "sin()" 0 6 = .error .columnOutOfRange ∧
      session.handle (.hover "file" 0 6) = (.failed .columnOutOfRange, session) := by
  intro session
  have hword : wordAt "sin()" 0 6 = .error .columnOutOfRange := by rfl
  have hheld : session.documents.get? "file" = some ⟨"sin()", Index.ofText session.known "sin()"⟩ :=
    OrderedMap.get?_insert_self _ _ _
  refine ⟨hheld, hword, ?_⟩
  rw [Session.handle_hover_eq hheld, hword]

end LineCalc.Document
