import LineCalc.Proofs.Document.Agreement
import LineCalc.Proofs.Document.Hovering
import LineCalc.Proofs.Parsing.Failing
import LineCalc.Proofs.Parsing.Renaming

/-!
# Documents line by line

A text that consists of rows with a line break between any two of them has these rows for its lines,
whichever of the line breaks it is (`Text.lines_intercalate`). So the index of the text is made up
of the indexes of its rows as texts of their own, moved to their lines (`Index.ofText_intercalate`).

The places in the index are those of the rows. A name is used where it stands in its row, because
tokens are pieces of their text (`Cursor.isPiece_of_mem`). A row that is no expression is marked at a
token of that row, because the parser has found one there when it fails, however often it has tried
and gone back before (`found_mem_lex`).
-/

namespace LineCalc

namespace Text

/-! ## Rows and line breaks -/

/-- What can stand between two lines: a character that ends lines, or a carriage return and a line
feed together. -/
def lineBreaks : List String :=
  ["\n", "\r", "\r\n", "\x0b", "\x0c", "\x1c", "\x1d", "\x1e", "\u0085", "\u2028", "\u2029"]

/-- Characters without line ends, as they are in a line. -/
def Unbroken (row : List Char) : Prop :=
  ∀ c ∈ row, isLineEnd c = false

/-- A line stops at a character that ends lines. A line feed belongs to the carriage return before
it. -/
theorem linesFrom_lineEnd {c : Char} (hc : isLineEnd c = true) {rest : List Char}
    (hrest : c = '\r' → rest.head? ≠ some '\n') (line : List Char) :
    linesFrom line (c :: rest) = line.reverse :: linesFrom [] rest := by
  rw [linesFrom, if_pos hc]
  rintro cs hcr rfl
  exact hrest hcr rfl

/-- A line break is a character that ends lines, unless it is two characters. -/
theorem toList_of_mem_lineBreaks {lineBreak : String} (h : lineBreak ∈ lineBreaks) :
    lineBreak.toList = ['\r', '\n'] ∨ ∃ c, lineBreak.toList = [c] ∧ isLineEnd c = true := by
  have hall : lineBreaks.all (fun lineBreak => lineBreak.toList = ['\r', '\n'] ||
      lineBreak.toList.length == 1 && lineBreak.toList.all isLineEnd) = true := by
    decide
  have hone := List.all_eq_true.mp hall lineBreak h
  rw [Bool.or_eq_true, decide_eq_true_eq, Bool.and_eq_true, beq_iff_eq] at hone
  refine hone.imp id fun ⟨hlength, hend⟩ => ?_
  obtain ⟨c, hc⟩ := List.length_eq_one_iff.mp hlength
  rw [hc] at hend
  exact ⟨c, hc, List.all_eq_true.mp hend c (List.mem_singleton_self c)⟩

/-- What stands in joined rows is in one of them or in what joins them. -/
theorem mem_of_mem_intercalate {α : Type} {separator : List α} {rows : List (List α)} {a : α}
    (h : a ∈ separator.intercalate rows) : a ∈ separator ∨ ∃ row ∈ rows, a ∈ row := by
  induction rows with
  | nil => cases h
  | cons row rows ih =>
    cases rows with
    | nil =>
      rw [List.intercalate_singleton] at h
      exact .inr ⟨row, List.mem_singleton_self row, h⟩
    | cons next rows =>
      rw [List.intercalate_cons_cons, List.mem_append, List.mem_append] at h
      rcases h with (h | h) | h
      · exact .inr ⟨row, List.mem_cons_self, h⟩
      · exact .inl h
      · exact (ih h).imp id fun ⟨other, hother, ha⟩ => ⟨other, List.mem_cons_of_mem row hother, ha⟩

/-- A line stops at a line break before joined rows. -/
theorem linesFrom_lineBreak {lineBreak : String} (h : lineBreak ∈ lineBreaks)
    {rows : List (List Char)} (hrows : ∀ row ∈ rows, Unbroken row) (line : List Char) :
    linesFrom line (lineBreak.toList ++ lineBreak.toList.intercalate rows) =
      line.reverse :: linesFrom [] (lineBreak.toList.intercalate rows) := by
  rcases toList_of_mem_lineBreaks h with hboth | ⟨c, hone, hc⟩
  · rw [hboth]
    rfl
  · -- A carriage return is not followed by a line feed, neither one of a row nor one that joins rows.
    rw [hone]
    refine linesFrom_lineEnd hc ?_ line
    rintro rfl hfeed
    rcases mem_of_mem_intercalate (List.mem_of_head? hfeed) with hmem | ⟨row, hrow, hmem⟩
    · simp at hmem
    · cases hrows row hrow _ hmem

/-- The lines of joined rows are the rows, but the last one is no line if it is empty. -/
theorem lines_intercalate {lineBreak : String} (h : lineBreak ∈ lineBreaks)
    {rows : List (List Char)} (hrows : ∀ row ∈ rows, Unbroken row) :
    lines (lineBreak.toList.intercalate rows) = rows ∨
      lines (lineBreak.toList.intercalate rows) ++ [[]] = rows := by
  induction rows with
  | nil => exact .inl rfl
  | cons row rows ih =>
    obtain ⟨hrow, hrows⟩ := List.forall_mem_cons.mp hrows
    cases rows with
    | nil =>
      rw [List.intercalate_singleton]
      by_cases hempty : row = []
      · rw [hempty]
        exact .inr rfl
      · exact .inl (lines_eq_singleton hrow hempty)
    | cons next rows =>
      have hlines : lines (lineBreak.toList.intercalate (row :: next :: rows)) =
          row :: lines (lineBreak.toList.intercalate (next :: rows)) := by
        -- The first row goes up to the line break, and the others are lines by themselves.
        rw [lines, List.intercalate_cons_cons, List.append_assoc, linesFrom_append hrow,
          linesFrom_lineBreak h hrows, List.append_nil, List.reverse_reverse]
        rfl
      rw [hlines]
      exact (ih hrows).imp (congrArg _) (congrArg _)

end Text

/-- The token that the parser has found when it fails is one of the text. -/
theorem found_mem_lex {source : String} {error : ParseError}
    (h : parseTokens source = .error error) : error.found ∈ lex source := by
  obtain ⟨ts, hlex, hts⟩ := lex_eq_append source
  rw [parseTokens_eq hlex hts] at h
  cases hrule : Words.rule .complete (⟨ts⟩ : Words (Cursor.endToken source.toList)) with
  | ok t w =>
    rw [hrule] at h
    cases h
  | error error' w =>
    rw [hrule] at h
    obtain rfl := Except.error.inj h
    have hblocked := Words.rule_blocked rfl .complete ts error' w.list hrule
    obtain ⟨before, after, hsplit, -⟩ := hblocked.exists_split rfl hts
    rw [hlex, hsplit]
    exact List.mem_append_right before List.mem_cons_self

namespace Document

/-- One use comes before another one in a document. -/
def Use.Before (first second : Use) : Prop :=
  first.line < second.line ∨ first.line = second.line ∧ first.column < second.column

namespace Index

/-! ## Indexes of rows -/

/-- The index of a text of one line, for the line of another text. -/
def onLine (line : Nat) (index : Index) : Index :=
  ⟨index.problems.map fun problem => { problem with line := line },
    index.uses.map fun use => { use with line := line },
    index.unbound.map fun use => { use with line := line }⟩

/-- Indexes put together in order. -/
def concat (indexes : List Index) : Index :=
  ⟨indexes.flatMap Index.problems, indexes.flatMap Index.uses, indexes.flatMap Index.unbound⟩

/-- The index of some rows: the indexes of those that are not blank, each on the line of its row. -/
def ofRows (known : List String) (rows : List String) : Index :=
  concat ((rows.zipIdx.filter fun (row, _) => !row.toList.all Text.isBlank).map
    fun (row, line) => (ofText known row).onLine line)

/-- What is on a line is the same for all lines but for their numbers. -/
theorem onLine_ofLine (known : List String) (line : Nat) (chars : List Char) :
    (ofLine known 0 chars).onLine line = ofLine known line chars := by
  unfold ofLine
  split
  · rfl
  · have hproblems : (lineProblems 0 (String.ofList chars)).map
        (fun problem => { problem with line := line }) = lineProblems line (String.ofList chars) := by
      unfold lineProblems
      split <;> rfl
    have huses : (lineUses 0 (String.ofList chars)).map (fun use => { use with line := line }) =
        lineUses line (String.ofList chars) := by
      unfold lineUses
      rw [List.map_filterMap]
      congr 1
      funext token
      split <;> rfl
    unfold onLine
    dsimp only
    rw [hproblems, ← huses, List.filter_map]
    rfl

/-- A text of one line has the index of this line. -/
theorem ofText_of_unbroken (known : List String) {row : String} (hrow : Text.Unbroken row.toList) :
    ofText known row = ofLine known 0 row.toList := by
  unfold ofText
  by_cases hempty : row.toList = []
  · rw [hempty]
    rfl
  · rw [Text.lines_eq_singleton hrow hempty]
    simp [ofLines, append, empty]

/-- The index of a line that is a row with its number. -/
def ofRow (known : List String) (numbered : String × Nat) : Index :=
  ofLine known numbered.2 numbered.1.toList

/-- The index of lines is that of each line, put together. -/
theorem ofLines_eq_concat (known : List String) (rows : List String) (line : Nat) :
    ofLines known line (rows.map String.toList) =
      concat ((rows.zipIdx line).map (ofRow known)) := by
  induction rows generalizing line with
  | nil => rfl
  | cons row rows ih =>
    rw [List.map_cons, ofLines, ih]
    rfl

/-- An empty line at the end adds nothing. -/
theorem ofLines_concat_nil (known : List String) (line : Nat) (lines : List (List Char)) :
    ofLines known line (lines ++ [[]]) = ofLines known line lines := by
  induction lines generalizing line with
  | nil => rfl
  | cons chars lines ih => rw [List.cons_append, ofLines, ofLines, ih]

/-- Rows that are blank can be left out when they have been numbered. -/
theorem concat_notBlank (known : List String) (numbered : List (String × Nat)) :
    concat ((numbered.filter fun (row, _) => !row.toList.all Text.isBlank).map (ofRow known)) =
      concat (numbered.map (ofRow known)) := by
  induction numbered with
  | nil => rfl
  | cons entry numbered ih =>
    cases hblank : entry.1.toList.all Text.isBlank with
    | false =>
      rw [List.filter_cons_of_pos (by simp [hblank])]
      exact congrArg (append (ofRow known entry)) ih
    | true =>
      have hempty : ofRow known entry = empty := by
        unfold ofRow ofLine
        rw [if_pos hblank]
      rw [List.filter_cons_of_neg (by simp [hblank]), ih]
      show _ = append (ofRow known entry) (concat _)
      rw [hempty]
      rfl

/-- The index of rows is that of the lines that they are. -/
theorem ofRows_eq_concat (known : List String) {rows : List String}
    (hrows : ∀ row ∈ rows, Text.Unbroken row.toList) :
    ofRows known rows = concat (rows.zipIdx.map (ofRow known)) := by
  rw [← concat_notBlank, ofRows]
  refine congrArg concat (List.map_congr_left ?_)
  rintro ⟨row, line⟩ hmem
  have hrow : row ∈ rows :=
    List.mem_of_getElem? (List.mem_zipIdx_iff_getElem?.mp (List.mem_filter.mp hmem).1)
  show (ofText known row).onLine line = ofLine known line row.toList
  rw [ofText_of_unbroken known (hrows row hrow), onLine_ofLine]

/-- The index of rows that are joined by a line break is that of the rows. -/
theorem ofText_eq_ofRows (known : List String) {lineBreak : String}
    (h : lineBreak ∈ Text.lineBreaks) {rows : List String}
    (hrows : ∀ row ∈ rows, Text.Unbroken row.toList) :
    ofText known (lineBreak.intercalate rows) = ofRows known rows := by
  have hchars : ∀ row ∈ rows.map String.toList, Text.Unbroken row := by
    rintro _ hmem
    obtain ⟨row, hrow, rfl⟩ := List.mem_map.mp hmem
    exact hrows row hrow
  rw [ofRows_eq_concat known hrows, ← ofLines_eq_concat, ofText, String.toList_intercalate]
  rcases Text.lines_intercalate h hchars with hlines | hlines
  · rw [hlines]
  · have hlast := ofLines_concat_nil known 0
      (Text.lines (lineBreak.toList.intercalate (rows.map String.toList)))
    rw [hlines] at hlast
    exact hlast.symm

end Index

/-! ## Places in rows -/

/-- The characters of a row from a column on, as many as a length says. -/
def span (row : String) (column length : Nat) : List Char :=
  (row.toList.drop column).take length

/-- A problem marks what the parser has found in a row when it fails: the token that it is, or one
column at the end of the row. -/
structure Problem.Marks (problem : Problem) (row : String) (error : ParseError) : Prop where
  /-- The row is no expression for this reason. -/
  fails : parse row = .error error
  /-- The message is that of the reason. -/
  message : problem.message = error.message
  /-- The token is one of the row. -/
  found : error.found ∈ lex row
  /-- A token before the end has the columns of the problem. -/
  token : error.found.kind ≠ .endOfFile →
    problem.column = error.found.offset ∧ problem.length = error.found.lexeme.length ∧
      span row problem.column problem.length = error.found.lexeme.toList
  /-- The end of the row has one column behind the last. -/
  atEnd : error.found.kind = .endOfFile → problem.column = row.length ∧ problem.length = 1

/-- An index tells for each row of a document which names are used in it and where it fails to be an
expression. -/
structure Index.Faithful (known : List String) (rows : List String) (index : Index) : Prop where
  /-- A name stands in its row where it is used. -/
  use : ∀ use ∈ index.uses, ∃ row, rows[use.line]? = some row ∧
    span row use.column use.name.length = use.name.toList
  /-- The uses are in the order of their places. -/
  uses_ascending : index.uses.Pairwise Use.Before
  /-- Those that are not bound are the ones of names that are not known. -/
  unbound : index.unbound = index.uses.filter fun use => use.name ∉ known
  /-- A problem marks what is found in its row. -/
  problem : ∀ problem ∈ index.problems, ∃ row error, rows[problem.line]? = some row ∧
    problem.Marks row error
  /-- No line has more than one problem, and they are in order. -/
  problems_ascending : index.problems.Pairwise fun first second => first.line < second.line

namespace Index

section

variable {line : Nat} {row : String}

/-- Every use on a line is that of a name which stands there. -/
theorem span_of_mem_lineUses {use : Use} (huse : use ∈ lineUses line row) :
    use.line = line ∧ span row use.column use.name.length = use.name.toList := by
  obtain ⟨token, htoken, hname, rfl⟩ := mem_lineUses_iff.mp huse
  have hpiece := @Cursor.isPiece_of_mem (Cursor.ofString row) token htoken (by simp [hname])
  exact ⟨rfl, hpiece.lexeme.symm⟩

/-- The uses on a line are in the order of their columns. -/
theorem lineUses_ascending (line : Nat) (row : String) :
    (lineUses line row).Pairwise Use.Before := by
  obtain ⟨ts, hlex, -⟩ := lex_eq_append row
  have hnames : lineUses line row = ts.filterMap fun token =>
      if token.kind = .identifier then some ⟨token.lexeme, line, token.offset⟩ else none := by
    -- The end of the row is no name.
    rw [lineUses, hlex, List.filterMap_append]
    exact List.append_nil _
  rw [hnames]
  -- One line, so that only the columns count, and these are the offsets of the tokens.
  refine (lex_ascending hlex).filterMap _ fun first second hbefore use huse use' huse' => ?_
  split at huse
  · split at huse'
    · obtain rfl := Option.some.inj huse
      obtain rfl := Option.some.inj huse'
      exact .inr ⟨rfl, hbefore⟩
    · cases huse'
  · cases huse

/-- The problem of a line marks what is found in it. -/
theorem marks_of_mem_lineProblems {problem : Problem} (hproblem : problem ∈ lineProblems line row) :
    problem.line = line ∧ ∃ error, problem.Marks row error := by
  obtain ⟨error, herror, rfl⟩ := mem_lineProblems_iff.mp hproblem
  have hfound := found_mem_lex herror
  refine ⟨rfl, error, ?_, rfl, hfound, fun hkind => ?_, fun hkind => ?_⟩
  · rw [parse, herror]
    rfl
  · have hpiece := @Cursor.isPiece_of_mem (Cursor.ofString row) error.found hfound hkind
    have hlength : max error.found.lexeme.length 1 = error.found.lexeme.length := by
      refine Nat.max_eq_left (Nat.one_le_iff_ne_zero.mpr fun hzero => hpiece.nonempty ?_)
      exact String.length_eq_zero_iff.mp hzero
    refine ⟨rfl, hlength, ?_⟩
    dsimp only
    rw [hlength]
    exact hpiece.lexeme.symm
  · rw [eq_endToken_of_mem_lex hfound hkind]
    exact ⟨String.length_toList, rfl⟩

/-- A line has no two problems. -/
theorem lineProblems_pairwise {R : Problem → Problem → Prop} (line : Nat) (row : String) :
    (lineProblems line row).Pairwise R := by
  unfold lineProblems
  split
  · exact .nil
  · exact List.pairwise_singleton R _

end

/-- The index of a row has the uses and the problems of its line, or nothing at all. -/
theorem ofRow_sublist (known : List String) (numbered : String × Nat) :
    (ofRow known numbered).uses.Sublist (lineUses numbered.2 numbered.1) ∧
      (ofRow known numbered).problems.Sublist (lineProblems numbered.2 numbered.1) := by
  unfold ofRow ofLine
  split
  · exact ⟨List.nil_sublist _, List.nil_sublist _⟩
  · rw [String.ofList_toList]
    exact ⟨.refl _, .refl _⟩

/-- The rows are numbered in order. -/
theorem zipIdx_ascending {α : Type} (rows : List α) :
    rows.zipIdx.Pairwise fun first second => first.2 < second.2 := by
  have hnumbers : (List.range' 0 rows.length).Pairwise (· < ·) := List.pairwise_lt_range'
  rw [← List.zipIdx_map_snd, List.pairwise_map] at hnumbers
  exact hnumbers

/-- The index of numbered rows is faithful to the rows. -/
theorem faithful_concat (known : List String) (rows : List String) :
    (concat (rows.zipIdx.map (ofRow known))).Faithful known rows := by
  have hrow : ∀ entry ∈ rows.zipIdx, rows[entry.2]? = some entry.1 := fun _ hentry =>
    List.mem_zipIdx_iff_getElem?.mp hentry
  have huse : ∀ (entry : String × Nat), ∀ use ∈ (ofRow known entry).uses, use.line = entry.2 ∧
      span entry.1 use.column use.name.length = use.name.toList := fun entry use h =>
    span_of_mem_lineUses ((ofRow_sublist known entry).1.subset h)
  have hproblem : ∀ (entry : String × Nat), ∀ problem ∈ (ofRow known entry).problems,
      problem.line = entry.2 ∧ ∃ error, problem.Marks entry.1 error := fun entry problem h =>
    marks_of_mem_lineProblems ((ofRow_sublist known entry).2.subset h)
  unfold concat
  rw [List.flatMap_map, List.flatMap_map, List.flatMap_map]
  -- Order is that of columns in a row, and that of the numbers between two rows.
  constructor
  case use =>
    intro use h
    obtain ⟨entry, hentry, h⟩ := List.mem_flatMap.mp h
    obtain ⟨hline, hspan⟩ := huse entry use h
    exact ⟨entry.1, hline ▸ hrow entry hentry, hspan⟩
  case uses_ascending =>
    refine List.pairwise_flatMap.mpr ⟨fun entry _ => ?_, ?_⟩
    · exact (lineUses_ascending entry.2 entry.1).sublist (ofRow_sublist known entry).1
    · refine (zipIdx_ascending rows).imp fun hlt use h use' h' => .inl ?_
      rwa [(huse _ use h).1, (huse _ use' h').1]
  case unbound =>
    rw [List.filter_flatMap]
    refine congrArg (List.flatMap · rows.zipIdx) (funext fun entry => ?_)
    exact unbound_ofLine known entry.2 entry.1.toList
  case problem =>
    intro problem h
    obtain ⟨entry, hentry, h⟩ := List.mem_flatMap.mp h
    obtain ⟨hline, error, hmarks⟩ := hproblem entry problem h
    exact ⟨entry.1, error, hline ▸ hrow entry hentry, hmarks⟩
  case problems_ascending =>
    refine List.pairwise_flatMap.mpr ⟨fun entry _ => ?_, ?_⟩
    · exact (lineProblems_pairwise entry.2 entry.1).sublist (ofRow_sublist known entry).2
    · refine (zipIdx_ascending rows).imp fun hlt problem h problem' h' => ?_
      rwa [(hproblem _ problem h).1, (hproblem _ problem' h').1]

/-- The index of a text whose rows are joined by a line break is put together from the indexes of
those rows that are not blank, whichever line break it is, and the places in it are those of the
rows. -/
theorem ofText_intercalate (known rows : List String) (lineBreak : String)
    (hbreak : lineBreak ∈ Text.lineBreaks) (hrows : ∀ row ∈ rows, Text.Unbroken row.toList) :
    ofText known (lineBreak.intercalate rows) = ofRows known rows ∧
      (ofRows known rows).Faithful known rows := by
  refine ⟨ofText_eq_ofRows known hbreak hrows, ?_⟩
  rw [ofRows_eq_concat known hrows]
  exact faithful_concat known rows

set_option maxRecDepth 4000 in
/-- A blank row between two others counts, so that the problem at the end of the last row is on the
third line. -/
theorem ofText_intercalate_blank :
    let rows := ["a", " ", "2*"]
    (ofRows [] rows).uses = [⟨"a", 0, 0⟩] ∧
      (ofRows [] rows).problems.map (fun problem => (problem.line, problem.column, problem.length)) =
        [(2, 2, 1)] ∧
      ofText [] ("\r\n".intercalate rows) = ofRows [] rows ∧ (ofRows [] rows).Faithful [] rows := by
  intro rows
  have hbreak : "\r\n" ∈ Text.lineBreaks := by decide
  have hrows : ∀ row ∈ rows, Text.Unbroken row.toList := by
    simp [rows, Text.Unbroken, Text.isLineEnd]
  exact ⟨by rfl, by rfl, ofText_intercalate [] rows "\r\n" hbreak hrows⟩

end Index

end Document

end LineCalc
