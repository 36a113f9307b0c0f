import LineCalc.Settings
import LineCalc.Proofs.Lexing.Boundary

/-!
# Lists of names in the environment

A list of names is spelled as a text: the names, blanks around each of them as one likes, and parts
that are blank as one likes, with commas between all of these (`Spells`). Every text spells a list
(`exists_spells`), and what is read from a setting is the list that it spells, unless the setting
is the word that turns the whole list off (`itemsOr_spelled`).

A comma is not blank. So the parts of a text are found again where its commas are, and each of them
without the blanks at its ends is a name or nothing (`Padded.itemsAmong_eq`).
-/

namespace LineCalc

namespace Text

/-! ## Blanks at the ends of a text -/

/-- A text is blank at neither end. -/
structure IsTrimmed (cs : List Char) : Prop where
  head : ∀ c ∈ cs.head?, isBlank c = false
  last : ∀ c ∈ cs.getLast?, isBlank c = false

/-- A text without blanks is blank at neither end. -/
theorem isTrimmed_of_any_eq_false {cs : List Char} (h : cs.any isBlank = false) : IsTrimmed cs := by
  have hblank : ∀ c ∈ cs, isBlank c = false := by simpa using h
  exact ⟨fun c hc => hblank c (List.mem_of_head? hc),
    fun c hc => hblank c (List.mem_of_getLast? hc)⟩

/-- Blanks around a text that is blank at neither end are taken off, and no more. -/
theorem trim_padded {left cs right : List Char} (hleft : ∀ c ∈ left, isBlank c = true)
    (hright : ∀ c ∈ right, isBlank c = true) (hcs : IsTrimmed cs) :
    trim (left ++ cs ++ right) = cs := by
  cases cs with
  | nil =>
    have hblank : (left ++ [] ++ right).dropWhile isBlank = [] := by
      rw [List.append_nil, List.dropWhile_append_of_pos hleft, ← List.append_nil right,
        List.dropWhile_append_of_pos hright]
      rfl
    rw [trim, hblank]
    rfl
  | cons c cs =>
    have hhead : ∀ d ∈ (c :: cs ++ right).head?, isBlank d = false := hcs.head
    have hstart : (left ++ (c :: cs) ++ right).dropWhile isBlank = c :: cs ++ right := by
      rw [List.append_assoc]
      exact (takeWhile_append_of_head hleft hhead).2
    -- The other end comes first in the text that is turned round.
    have hstop : (right.reverse ++ (c :: cs).reverse).dropWhile isBlank = (c :: cs).reverse := by
      refine (takeWhile_append_of_head (fun d hd => hright d (List.mem_reverse.mp hd)) ?_).2
      rw [List.head?_reverse]
      exact hcs.last
    rw [trim, hstart, List.reverse_append, hstop, List.reverse_reverse]

/-- What is left of a text is blank at neither end. -/
theorem isTrimmed_trim (cs : List Char) : IsTrimmed (trim cs) := by
  obtain ⟨left, hleft⟩ := List.dropWhile_suffix (l := (cs.dropWhile isBlank).reverse) isBlank
  have hlast := head_dropWhile isBlank (cs.dropWhile isBlank).reverse
  have hhead := head_dropWhile isBlank cs
  constructor
  · -- It begins where the blanks before it end.
    have happend : cs.dropWhile isBlank = trim cs ++ left.reverse := by
      rw [trim, ← List.reverse_append, hleft, List.reverse_reverse]
    intro c hc
    refine hhead c ?_
    rw [happend, List.head?_append, Option.mem_def.mp hc]
    rfl
  · rw [trim, List.getLast?_reverse]
    exact hlast

/-- A text is what is left of it with blanks around that. -/
theorem exists_padded (cs : List Char) : ∃ left right, (∀ c ∈ left, isBlank c = true) ∧
    (∀ c ∈ right, isBlank c = true) ∧ cs = left ++ trim cs ++ right := by
  refine ⟨cs.takeWhile isBlank, ((cs.dropWhile isBlank).reverse.takeWhile isBlank).reverse,
    List.all_eq_true.mp List.all_takeWhile, fun c hc => ?_, ?_⟩
  · exact List.all_eq_true.mp List.all_takeWhile c (List.mem_reverse.mp hc)
  · rw [List.append_assoc, trim, ← List.reverse_append, List.takeWhile_append_dropWhile,
      List.reverse_reverse, List.takeWhile_append_dropWhile]

/-- A blank has no other case. -/
theorem toLower_of_isBlank {c : Char} (h : isBlank c = true) : c.toLower = c := by
  by_cases hupper : c.isUpper = true
  · -- A letter is part of a word, which a blank is not.
    have halpha : c.isAlpha = true := by
      show (c.isUpper || c.isLower) = true
      rw [hupper, Bool.true_or]
    have hletter := isLetter_of_isAlpha halpha
    have hword := isWordChar_of_isBlank h
    simp [isWordChar, hletter] at hword
  · unfold Char.isUpper at hupper
    unfold Char.toLower
    rw [dif_neg]
    simpa using hupper

end Text

namespace Settings

/-! ## Spelling a list of names -/

/-- A name that can stand in a list: it has characters, none of them is a comma, and it is blank at
neither end. -/
structure IsName (name : String) : Prop where
  nonempty : name ≠ ""
  comma : ',' ∉ name.toList
  trimmed : Text.IsTrimmed name.toList

/-- The parts of a list of names, in their order: each name with blanks around it, and any number
of parts that are blank. -/
inductive Padded : List String → List (List Char) → Prop
  | nil : Padded [] []
  | blank {names : List String} {parts : List (List Char)} {cs : List Char}
    (hcs : ∀ c ∈ cs, Text.isBlank c = true) (h : Padded names parts) : Padded names (cs :: parts)
  | name {name : String} {names : List String} {parts : List (List Char)} (left right : List Char)
    (hleft : ∀ c ∈ left, Text.isBlank c = true) (hright : ∀ c ∈ right, Text.isBlank c = true)
    (h : Padded names parts) :
    Padded (name :: names) ((left ++ name.toList ++ right) :: parts)

/-- A text spells a list of names: its parts with commas between them. -/
def Spells (names : List String) (text : String) : Prop :=
  ∃ parts, Padded names parts ∧ text.toList = [','].intercalate parts

/-- A text turns a list off: it is the word `none` in any case, with blanks around it. No character
outside of ASCII has a letter of this word as its other case. -/
def TurnsOff (text : String) : Prop :=
  ∃ left word right, (∀ c ∈ left, Text.isBlank c = true) ∧
    (∀ c ∈ right, Text.isBlank c = true) ∧ text.toList = left ++ word ++ right ∧
    word.map Char.toLower = ['n', 'o', 'n', 'e']

/-- The items among parts: those that are not blank, without the blanks around them. -/
def itemsAmong (parts : List (List Char)) : List String :=
  (parts.map Text.trim).filterMap fun part =>
    if part.isEmpty then none else some (String.ofList part)

/-- A blank part is no item. -/
theorem itemsAmong_cons_blank {cs : List Char} (h : ∀ c ∈ cs, Text.isBlank c = true)
    (parts : List (List Char)) : itemsAmong (cs :: parts) = itemsAmong parts := by
  have hnone : ∀ c ∈ ([] : List Char), Text.isBlank c = true := nofun
  have hempty : Text.IsTrimmed [] := ⟨nofun, nofun⟩
  have htrim : Text.trim cs = [] := by simpa using Text.trim_padded h hnone hempty
  simp [itemsAmong, htrim]

/-- A part with a name in it is that item. -/
theorem itemsAmong_cons_name {name : String} (hname : IsName name) {left right : List Char}
    (hleft : ∀ c ∈ left, Text.isBlank c = true) (hright : ∀ c ∈ right, Text.isBlank c = true)
    (parts : List (List Char)) :
    itemsAmong ((left ++ name.toList ++ right) :: parts) = name :: itemsAmong parts := by
  have htrim := Text.trim_padded hleft hright hname.trimmed
  have hne : name.toList.isEmpty = false := by simpa using hname.nonempty
  simp only [itemsAmong, List.map_cons, htrim, List.filterMap_cons, hne, Bool.false_eq_true,
    if_false, String.ofList_toList]

namespace Padded

variable {names : List String} {parts : List (List Char)}

/-- The items among the parts of a list are its names. -/
theorem itemsAmong_eq (h : Padded names parts) (hnames : ∀ name ∈ names, IsName name) :
    itemsAmong parts = names := by
  induction h with
  | nil => rfl
  | blank hcs h ih => rw [itemsAmong_cons_blank hcs, ih hnames]
  | name left right hleft hright h ih =>
    obtain ⟨hname, hnames⟩ := List.forall_mem_cons.mp hnames
    rw [itemsAmong_cons_name hname hleft hright, ih hnames]

/-- A part of a list has no comma. -/
theorem comma (h : Padded names parts) (hnames : ∀ name ∈ names, IsName name) :
    ∀ part ∈ parts, ',' ∉ part := by
  have hblank : ∀ {cs : List Char}, (∀ c ∈ cs, Text.isBlank c = true) → ',' ∉ cs :=
    fun hcs hmem => absurd (hcs _ hmem) (by decide)
  induction h with
  | nil => exact nofun
  | blank hcs h ih => exact List.forall_mem_cons.mpr ⟨hblank hcs, ih hnames⟩
  | name left right hleft hright h ih =>
    obtain ⟨hname, hnames⟩ := List.forall_mem_cons.mp hnames
    refine List.forall_mem_cons.mpr ⟨?_, ih hnames⟩
    simp only [List.mem_append, not_or]
    exact ⟨⟨hblank hleft, hname.comma⟩, hblank hright⟩

/-- Parts without commas are those of a list. -/
theorem exists_names (h : ∀ part ∈ parts, ',' ∉ part) :
    ∃ names, Padded names parts ∧ ∀ name ∈ names, IsName name := by
  induction parts with
  | nil => exact ⟨[], .nil, nofun⟩
  | cons part parts ih =>
    obtain ⟨hpart, hparts⟩ := List.forall_mem_cons.mp h
    obtain ⟨names, hnames, hall⟩ := ih hparts
    obtain ⟨left, right, hleft, hright, happend⟩ := Text.exists_padded part
    have htrimmed := Text.isTrimmed_trim part
    generalize Text.trim part = core at happend htrimmed
    subst happend
    -- What stands between the blanks is a name, unless there is nothing.
    by_cases hcore : core = []
    · refine ⟨names, .blank (fun c hc => ?_) hnames, hall⟩
      rw [hcore, List.append_nil, List.mem_append] at hc
      exact hc.elim (hleft c) (hright c)
    · have hname : IsName (String.ofList core) := by
        constructor
        · simpa using hcore
        · rw [String.toList_ofList]
          exact fun hmem => hpart (by simp [hmem])
        · rwa [String.toList_ofList]
      refine ⟨String.ofList core :: names, ?_, List.forall_mem_cons.mpr ⟨hname, hall⟩⟩
      have hpadded : Padded (String.ofList core :: names)
          ((left ++ (String.ofList core).toList ++ right) :: parts) :=
        .name left right hleft hright hnames
      rwa [String.toList_ofList] at hpadded

end Padded

/-- No part of a text that is divided at its commas has one. -/
theorem not_mem_of_mem_splitOn (cs : List Char) : ∀ part ∈ cs.splitOn ',', ',' ∉ part := by
  induction cs with
  | nil => simp
  | cons c cs ih =>
    rw [List.splitOn_cons_eq_if_modifyHead]
    split
    · exact List.forall_mem_cons.mpr ⟨by simp, ih⟩
    · next hc =>
      obtain ⟨part, parts, hparts⟩ := List.exists_cons_of_ne_nil (List.splitOn_ne_nil ',' cs)
      rw [hparts] at ih ⊢
      obtain ⟨hpart, hrest⟩ := List.forall_mem_cons.mp ih
      refine List.forall_mem_cons.mpr ⟨?_, hrest⟩
      rw [List.mem_cons, not_or]
      exact ⟨fun heq => hc (beq_iff_eq.mpr heq.symm), hpart⟩

/-- Every text spells a list of names. -/
theorem exists_spells (text : String) :
    ∃ names, Spells names text ∧ ∀ name ∈ names, IsName name := by
  obtain ⟨names, hpadded, hnames⟩ := Padded.exists_names (not_mem_of_mem_splitOn text.toList)
  exact ⟨names, ⟨_, hpadded, (List.intercalate_splitOn ',').symm⟩, hnames⟩

/-! ## Reading a setting -/

/-- A text is off if nothing is left of it, or the word that turns a list off. -/
theorem isOff_iff (text : String) :
    isOff text.toList = true ↔ Text.trim text.toList = [] ∨ TurnsOff text := by
  have hword : isOff text.toList = true ↔ Text.trim text.toList = [] ∨
      (Text.trim text.toList).map Char.toLower = ['n', 'o', 'n', 'e'] := by
    simp [isOff]
  rw [hword]
  refine or_congr_right ⟨fun h => ?_, ?_⟩
  · obtain ⟨left, right, hleft, hright, happend⟩ := Text.exists_padded text.toList
    exact ⟨left, _, right, hleft, hright, happend, h⟩
  · rintro ⟨left, word, right, hleft, hright, happend, h⟩
    -- A blank would be in the word as it is, in either case.
    have hblank : ∀ c ∈ word, ¬Text.isBlank c = true := by
      intro c hc hblank
      have hmem := List.mem_map_of_mem (f := Char.toLower) hc
      rw [h, Text.toLower_of_isBlank hblank] at hmem
      simp only [List.mem_cons, List.not_mem_nil, or_false] at hmem
      rcases hmem with rfl | rfl | rfl | rfl <;> exact absurd hblank (by decide)
    have hword := Text.isTrimmed_of_any_eq_false (List.any_eq_false.mpr hblank)
    rw [happend, Text.trim_padded hleft hright hword, h]

/-- A setting that turns the list off has no items. -/
theorem items_of_turnsOff {text : String} (h : TurnsOff text) : items text.toList = [] := by
  rw [items, if_pos ((isOff_iff text).mpr (.inr h))]

/-- Another setting has the items that are among its parts. -/
theorem items_of_not_turnsOff {text : String} (h : ¬TurnsOff text) :
    items text.toList = itemsAmong (text.toList.splitOn ',') := by
  by_cases hoff : isOff text.toList = true
  · -- Nothing but blanks is one part, and that is no item.
    have htrim := ((isOff_iff text).mp hoff).resolve_right h
    obtain ⟨left, right, hleft, hright, happend⟩ := Text.exists_padded text.toList
    have hblank : ∀ c ∈ text.toList, Text.isBlank c = true := by
      rw [happend, htrim, List.append_nil]
      exact fun c hc => (List.mem_append.mp hc).elim (hleft c) (hright c)
    have hcomma : ',' ∉ text.toList := fun hmem => absurd (hblank _ hmem) (by decide)
    rw [items, if_pos hoff, List.splitOn_eq_singleton hcomma, itemsAmong_cons_blank hblank]
    rfl
  · rw [items, if_neg hoff]
    rfl

/-- The items of a text that spells a list of names are these, unless it turns the list off. -/
theorem Spells.items_eq {names : List String} {text : String} (h : Spells names text)
    (hnames : ∀ name ∈ names, IsName name) (hoff : ¬TurnsOff text) :
    items text.toList = names := by
  obtain ⟨parts, hparts, htext⟩ := h
  rw [items_of_not_turnsOff hoff, htext]
  cases parts with
  | nil =>
    -- A text without parts is divided into one, which is empty.
    cases hparts
    rfl
  | cons part parts =>
    rw [List.splitOn_intercalate ',' (hparts.comma hnames) (List.cons_ne_nil _ _),
      hparts.itemsAmong_eq hnames]

/-- A list of names is read from every text that spells it, in the order of the names and with each
as often as it is there, except from a text that turns the list off: from that, none. And whatever
text a setting is, what is read from it are names that can stand in a list. -/
theorem itemsOr_spelled (defaults : List String) :
    (∀ names text, (∀ name ∈ names, IsName name) → Spells names text →
      (¬TurnsOff text → itemsOr defaults (some text) = names) ∧
      (TurnsOff text → itemsOr defaults (some text) = [])) ∧
    ∀ text, ∀ name ∈ itemsOr defaults (some text), IsName name := by
  refine ⟨fun names text hnames h => ⟨h.items_eq hnames, items_of_turnsOff⟩, fun text => ?_⟩
  show ∀ name ∈ items text.toList, IsName name
  by_cases hoff : TurnsOff text
  · rw [items_of_turnsOff hoff]
    exact nofun
  · obtain ⟨names, h, hnames⟩ := exists_spells text
    rw [h.items_eq hnames hoff]
    exact hnames

/-- A name that is there twice is read twice, blank parts are passed over, and `none` among others
is a name. Alone, in any case, it turns the list off. -/
theorem itemsOr_spelled_twice_and_off :
    let names := ["math", "math", "none"]
    let text := " math,,\u3000math\t, none ,"
    ((∀ name ∈ names, IsName name) ∧ Spells names text ∧ ¬TurnsOff text ∧
      itemsOr [] (some text) = names ∧ "math" ∈ itemsOr [] (some text) ∧ IsName "math") ∧
    (IsName "NONE" ∧ Spells ["NONE"] "NONE " ∧ TurnsOff "NONE " ∧
      itemsOr [] (some "NONE ") = []) := by
  intro names text
  have hmath : IsName "math" := ⟨by decide, by decide, Text.isTrimmed_of_any_eq_false (by decide)⟩
  have hnone : IsName "none" := ⟨by decide, by decide, Text.isTrimmed_of_any_eq_false (by decide)⟩
  have hNONE : IsName "NONE" := ⟨by decide, by decide, Text.isTrimmed_of_any_eq_false (by decide)⟩
  have hspace : ∀ c ∈ [' '], Text.isBlank c = true := List.forall_mem_singleton.mpr (by decide)
  have hwide : ∀ c ∈ ['\u3000'], Text.isBlank c = true := List.forall_mem_singleton.mpr (by decide)
  have htab : ∀ c ∈ ['\t'], Text.isBlank c = true := List.forall_mem_singleton.mpr (by decide)
  have hnames : ∀ name ∈ names, IsName name := by simp [names, hmath, hnone]
  have hspells : Spells names text :=
    ⟨[" math".toList, [], "\u3000math\t".toList, " none ".toList, []],
      .name [' '] [] hspace nofun (.blank nofun (.name ['\u3000'] ['\t'] hwide htab
        (.name [' '] [' '] hspace hspace (.blank nofun .nil)))), by decide⟩
  have hon : ¬TurnsOff text := fun h => absurd ((isOff_iff text).mpr (.inr h)) (by decide)
  have halone : Spells ["NONE"] "NONE " :=
    ⟨["NONE ".toList], .name [] [' '] nofun hspace .nil, by decide⟩
  have hoff : TurnsOff "NONE " :=
    ⟨[], "NONE".toList, [' '], nofun, hspace, by decide, by decide⟩
  have hread := ((itemsOr_spelled []).1 names text hnames hspells).1 hon
  have hmem : "math" ∈ itemsOr [] (some text) := by rw [hread]; simp [names]
  exact ⟨⟨hnames, hspells, hon, hread, hmem, (itemsOr_spelled []).2 text "math" hmem⟩,
    hNONE, halone, hoff,
    ((itemsOr_spelled []).1 ["NONE"] "NONE " (by simpa using hNONE) halone).2 hoff⟩

end Settings

end LineCalc
