import LineCalc.Failure
import LineCalc.Proofs.Registration

/-!
# Tables over their edits

A table is changed by bindings, one at a time or several in a row. Which bindings are accepted does
not depend on the table: the name has to be a text that is not empty, and what it is bound to has to
be a value (`Accepts`, `Refuses`). An error shows what is refused, and where that cannot be shown,
it is what has been raised instead. Of several bindings those before the first refused one are
accepted (`Admits`). So a history of edits says which entries have been accepted so far, and the
table is at any time what these entries say (`Records`). One insertion keeps this
(`Records.insert`), and so does a run of edits, bad ones included (`run_records`).
-/

namespace LineCalc

namespace Table

variable {β : Type}

/-! ## Bindings that are asked for -/

/-- A binding is accepted as an entry: the name is a text that is not empty, and what it is to be
bound to is a value. -/
inductive Accepts : Datum × Candidate β → String × Value β → Prop
  | entry {name : String} {v : Value β} (hname : name ≠ "") :
    Accepts (.text name, .value v) (name, v)

/-- A binding is refused for its name, whatever the name is to be bound to, or else for that. -/
inductive Refuses : Datum × Candidate β → BindingFailure → Prop
  /-- The name is not a text, or it is empty. -/
  | name {name : Datum} {candidate : Candidate β} {shown : String}
    (hname : ∀ text, name = .text text → text = "") (hshown : name.display = .ok shown) :
    Refuses (name, candidate) (.invalid (.invalidName shown))
  /-- So it is, and it cannot be shown. -/
  | hiddenName {name : Datum} {candidate : Candidate β} {e : Raised}
    (hname : ∀ text, name = .text text → text = "") (hraised : name.display = .error e) :
    Refuses (name, candidate) (.raised e)
  /-- The name is good, but what it is to be bound to is no value. -/
  | candidate {name : String} {datum : Datum} {shown : String} (hname : name ≠ "")
    (hshown : datum.display = .ok shown) :
    Refuses (.text name, .other datum) (.invalid (.invalidValue name shown))
  /-- So it is, and that cannot be shown. -/
  | hiddenCandidate {name : String} {datum : Datum} {e : Raised} (hname : name ≠ "")
    (hraised : datum.display = .error e) : Refuses (.text name, .other datum) (.raised e)

/-- Of bindings in a row, those before the first refused one are accepted as entries. -/
inductive Admits : List (Datum × Candidate β) → List (String × Value β) → Option BindingFailure → Prop
  | nil : Admits [] [] none
  | accepted {binding : Datum × Candidate β} {entry : String × Value β}
    {bindings : List (Datum × Candidate β)} {entries : List (String × Value β)}
    {error? : Option BindingFailure} (h : Accepts binding entry)
    (hrest : Admits bindings entries error?) : Admits (binding :: bindings) (entry :: entries) error?
  | refused {binding : Datum × Candidate β} {bindings : List (Datum × Candidate β)}
    {error : BindingFailure} (h : Refuses binding error) : Admits (binding :: bindings) [] (some error)

/-- A bad name is refused, as an error that shows it or for what is raised instead. -/
theorem exists_refuses_name {name : Datum} (hname : ∀ text, name = .text text → text = "")
    (candidate : Candidate β) : ∃ error, Refuses (name, candidate) error := by
  cases hdisplay : name.display with
  | ok shown => exact ⟨_, .name hname hdisplay⟩
  | error e => exact ⟨_, .hiddenName hname hdisplay⟩

/-- So is what is no value, if the name is good. -/
theorem exists_refuses_candidate {name : String} (hname : name ≠ "") (datum : Datum) :
    ∃ error, Refuses (β := β) (.text name, .other datum) error := by
  cases hdisplay : datum.display with
  | ok shown => exact ⟨_, .candidate hname hdisplay⟩
  | error e => exact ⟨_, .hiddenCandidate hname hdisplay⟩

/-- Every binding is accepted or refused. -/
theorem accepts_or_refuses (binding : Datum × Candidate β) :
    (∃ entry, Accepts binding entry) ∨ ∃ error, Refuses binding error := by
  obtain ⟨name, candidate⟩ := binding
  by_cases hname : ∀ text, name = .text text → text = ""
  · exact .inr (exists_refuses_name hname candidate)
  · rw [Classical.not_forall] at hname
    obtain ⟨text, hname⟩ := hname
    obtain ⟨rfl, htext⟩ := Classical.not_imp.mp hname
    cases candidate with
    | value v => exact .inl ⟨_, .entry htext⟩
    | other datum => exact .inr (exists_refuses_candidate htext datum)

/-- Bindings in a row have entries, up to an error or to the last of them. -/
theorem exists_admits (bindings : List (Datum × Candidate β)) :
    ∃ entries error?, Admits bindings entries error? := by
  induction bindings with
  | nil => exact ⟨[], none, .nil⟩
  | cons binding bindings ih =>
    rcases accepts_or_refuses binding with ⟨entry, h⟩ | ⟨error, h⟩
    · obtain ⟨entries, error?, hrest⟩ := ih
      exact ⟨entry :: entries, error?, .accepted h hrest⟩
    · exact ⟨[], some error, .refused h⟩

/-- Accepted entries have names. -/
theorem Admits.name_ne_empty {bindings : List (Datum × Candidate β)}
    {entries : List (String × Value β)} {error? : Option BindingFailure}
    (h : Admits bindings entries error?) : ∀ entry ∈ entries, entry.1 ≠ "" := by
  induction h with
  | nil => exact nofun
  | accepted h _ ih =>
    obtain ⟨hname⟩ := h
    exact List.forall_mem_cons.mpr ⟨hname, ih⟩
  | refused => exact nofun

/-- An accepted binding is put into the table. -/
theorem define_of_accepts (table : Table β) {name : Datum} {candidate : Candidate β}
    {entry : String × Value β} (h : Accepts (name, candidate) entry) :
    table.define name candidate = .ok (table.insert entry.1 entry.2) := by
  obtain ⟨hname⟩ := h
  unfold define
  split <;> simp_all

/-- A bad name fails with the error that shows it. -/
theorem define_of_bad_name (table : Table β) {name : Datum}
    (hname : ∀ text, name = .text text → text = "") (candidate : Candidate β) :
    table.define name candidate = .error (.showing name .invalidName) := by
  unfold define
  split <;> simp_all

/-- What is no value fails with the error that shows it. -/
theorem define_of_other (table : Table β) {name : String} (hname : name ≠ "") (datum : Datum) :
    table.define (.text name) (.other datum) = .error (.showing datum (.invalidValue name)) := by
  unfold define
  split <;> simp_all

/-- A refused binding has its reason. -/
theorem define_of_refuses (table : Table β) {name : Datum} {candidate : Candidate β}
    {error : BindingFailure} (h : Refuses (name, candidate) error) :
    table.define name candidate = .error error := by
  cases h with
  | name hname hshown | hiddenName hname hshown =>
    rw [define_of_bad_name table hname, BindingFailure.showing, hshown]
  | candidate hname hshown | hiddenCandidate hname hshown =>
    rw [define_of_other table hname, BindingFailure.showing, hshown]

/-- The accepted ones of some bindings are put into the table, and no others. -/
theorem update_of_admits {bindings : List (Datum × Candidate β)}
    {entries : List (String × Value β)} {error? : Option BindingFailure}
    (h : Admits bindings entries error?) (table : Table β) :
    table.update bindings = (error?, table.insertAll entries) := by
  induction h generalizing table with
  | nil => rfl
  | @accepted binding entry _ _ _ h _ ih =>
    rw [update, define_of_accepts table h]
    exact ih _
  | refused h =>
    rw [update, define_of_refuses table h]
    rfl

/-- A change to a table. -/
inductive Edit (β : Type) where
  /-- A name is defined. -/
  | define (name : Datum) (candidate : Candidate β)
  /-- An item is assigned, which is the same. -/
  | assign (name : Datum) (candidate : Candidate β)
  /-- Bindings are taken over in a row. -/
  | update (bindings : List (Datum × Candidate β))

/-- The bindings that an edit asks for. -/
def Edit.bindings : Edit β → List (Datum × Candidate β)
  | .define name candidate => [(name, candidate)]
  | .assign name candidate => [(name, candidate)]
  | .update bindings => bindings

/-- The error of an edit, if it has one, and the table after it. -/
def edit (table : Table β) : Edit β → Option BindingFailure × Table β
  | .define name candidate | .assign name candidate =>
    match table.define name candidate with
    | .ok after => (none, after)
    | .error error => (some error, table)
  | .update bindings => table.update bindings

/-- An edit is an update with its bindings. -/
theorem edit_eq_update (table : Table β) (e : Edit β) : table.edit e = table.update e.bindings := by
  cases e with
  | update bindings => rfl
  | define name candidate | assign name candidate =>
    rw [edit, Edit.bindings, update]
    cases table.define name candidate <;> rfl

/-- An edit puts those of its bindings into the table that are accepted. -/
theorem edit_of_admits (table : Table β) {e : Edit β} {entries : List (String × Value β)}
    {error? : Option BindingFailure} (h : Admits e.bindings entries error?) :
    table.edit e = (error?, table.insertAll entries) := by
  rw [edit_eq_update, update_of_admits h]

/-! ## Tables and what has been accepted -/

/-- A table is what entries make of it that have been accepted one after the other. -/
structure Records (log : List (String × Value β)) (table : Table β) : Prop where
  /-- No name is empty. -/
  nonempty : ∀ name ∈ table.names, name ≠ ""
  /-- The names are those of the entries, each once, in the order in which they came first. -/
  names : table.names = (log.map Prod.fst).eraseDups
  /-- There are as many as the table is said to have. -/
  size : table.size = table.names.length
  /-- A name has the value of its last entry, and without an entry it is not defined. -/
  lookup : ∀ name, table.lookup name = match log.reverse.lookup name with
    | some v => .ok v
    | none => .error (.undefinedIdentifier name)

/-- A table without names records nothing. -/
theorem Records.empty : Records [] (OrderedMap.empty : Table β) where
  nonempty := nofun
  names := rfl
  size := rfl
  lookup _ := rfl

/-- One more entry is recorded by its insertion. -/
theorem Records.insert {log : List (String × Value β)} {table : Table β} (h : Records log table)
    {entry : String × Value β} (hname : entry.1 ≠ "") :
    Records (log ++ [entry]) (table.insert entry.1 entry.2) where
  nonempty := by
    intro name hmem
    rcases (table.mem_names_insert_iff entry.1 name entry.2).mp hmem with rfl | hmem
    · exact hname
    · exact h.nonempty name hmem
  names := by
    rw [OrderedMap.names_insert, List.map_append, List.map_singleton, eraseDups_concat, h.names]
  size := (List.length_map _).symm
  lookup := by
    intro name
    have hold := h.lookup name
    unfold Table.lookup at hold ⊢
    rw [List.reverse_append, List.reverse_singleton, List.singleton_append, List.lookup_cons]
    by_cases heq : name = entry.1
    · rw [heq, OrderedMap.get?_insert_self, beq_self_eq_true]
    · rw [OrderedMap.get?_insert_of_ne heq, beq_eq_false_iff_ne.mpr heq]
      exact hold

/-- More entries are recorded one by one. -/
theorem Records.insertAll {log : List (String × Value β)} {table : Table β} (h : Records log table)
    {entries : List (String × Value β)} (hnames : ∀ entry ∈ entries, entry.1 ≠ "") :
    Records (log ++ entries) (table.insertAll entries) := by
  induction entries generalizing log table with
  | nil => rwa [List.append_nil]
  | cons entry entries ih =>
    obtain ⟨hname, hrest⟩ := List.forall_mem_cons.mp hnames
    have hall := ih (h.insert hname) hrest
    rwa [List.append_assoc, List.singleton_append] at hall

/-! ## Any number of edits -/

/-- The errors of edits one after the other, and the table after them. -/
def run (table : Table β) : List (Edit β) → List (Option BindingFailure) × Table β
  | [] => ([], table)
  | e :: edits =>
    let (error?, next) := table.edit e
    let (errors, last) := run next edits
    (error? :: errors, last)

/-- Edits one after the other have these errors, and these entries of them are accepted. -/
inductive History : List (Edit β) → List (Option BindingFailure) → List (String × Value β) → Prop
  | nil : History [] [] []
  | cons {e : Edit β} {edits : List (Edit β)} {entries log : List (String × Value β)}
    {error? : Option BindingFailure} {errors : List (Option BindingFailure)}
    (h : Admits e.bindings entries error?) (hrest : History edits errors log) :
    History (e :: edits) (error? :: errors) (entries ++ log)

/-- A run of edits adds to what a table records the entries that are accepted. -/
theorem Records.run {start : List (String × Value β)} {table : Table β} (h : Records start table)
    (edits : List (Edit β)) : ∃ log, History edits (table.run edits).1 log ∧
      Records (start ++ log) (table.run edits).2 := by
  induction edits generalizing start table with
  | nil => exact ⟨[], .nil, by rwa [List.append_nil]⟩
  | cons e edits ih =>
    obtain ⟨entries, error?, hadmits⟩ := exists_admits e.bindings
    obtain ⟨log, hhistory, hrecords⟩ := ih (h.insertAll hadmits.name_ne_empty)
    rw [Table.run, edit_of_admits table hadmits]
    refine ⟨entries ++ log, .cons hadmits hhistory, ?_⟩
    rwa [List.append_assoc] at hrecords

end Table

end LineCalc
