import Mathlib.Data.List.Induction
import LineCalc.Builtin

/-!
# What is bound

The names of a table are those that have a value in it (`OrderedMap.mem_names_iff`), and after
groups are registered these are the symbols of the operators and the names of the groups that there
are (`Builtin.mem_knownNames_iff`).

Built-in names are bound without the checks that a table makes of bindings from outside. The checks
would refuse none of them and bind them in the same way (`Table.update_bindings`).
-/

namespace LineCalc

/-! ## Distinct names -/

/-- The distinct ones of some names and of one more, which comes last if it is new. -/
theorem eraseDups_concat (names : List String) (name : String) :
    (names ++ [name]).eraseDups =
      if name ∈ names.eraseDups then names.eraseDups else names.eraseDups ++ [name] := by
  rw [List.eraseDups_append]
  by_cases h : name ∈ names
  · simp [List.removeAll, h]
  · simp [List.removeAll, List.eraseDups_cons, h]

/-- The distinct ones of some names are all different. -/
theorem nodup_eraseDups (names : List String) : names.eraseDups.Nodup := by
  induction names using List.reverseRecOn with
  | nil => exact List.nodup_nil
  | append_singleton names name ih =>
    rw [eraseDups_concat]
    split
    · exact ih
    · next h =>
      refine List.nodup_append.mpr ⟨ih, List.pairwise_singleton _ name, fun other hother new hnew => ?_⟩
      rw [List.mem_singleton.mp hnew]
      rintro rfl
      exact h hother

/-! ## Names of a map -/

namespace OrderedMap

variable {α : Type}

/-- The names of a map are those with a value. -/
theorem mem_names_iff (m : OrderedMap α) (name : String) :
    name ∈ m.names ↔ ∃ value, m.get? name = some value := by
  unfold names get?
  induction m.entries with
  | nil => simp
  | cons entry entries ih =>
    obtain ⟨first, value⟩ := entry
    by_cases h : name = first
    · simp [h]
    · have hne : (name == first) = false := beq_eq_false_iff_ne.mpr h
      simpa [h, List.lookup_cons, hne] using ih

/-- An insertion adds its name, if it is new. -/
theorem mem_names_insert_iff (m : OrderedMap α) (name other : String) (value : α) :
    other ∈ (m.insert name value).names ↔ other = name ∨ other ∈ m.names := by
  rw [mem_names_iff, mem_names_iff]
  by_cases h : other = name
  · rw [h, get?_insert_self]
    simp
  · rw [get?_insert_of_ne h]
    simp [h]

/-- Insertions add their names. -/
theorem mem_names_insertAll_iff (m : OrderedMap α) (entries : List (String × α)) (name : String) :
    name ∈ (m.insertAll entries).names ↔ name ∈ m.names ∨ name ∈ entries.map Prod.fst := by
  unfold insertAll
  induction entries generalizing m with
  | nil => simp
  | cons entry entries ih =>
    rw [List.foldl_cons, ih, mem_names_insert_iff, List.map_cons, List.mem_cons]
    exact or_assoc.trans or_left_comm

/-- The name of an insertion comes behind the others, unless it is one of them. -/
theorem names_insert (m : OrderedMap α) (name : String) (value : α) :
    (m.insert name value).names = if name ∈ m.names then m.names else m.names ++ [name] := by
  obtain ⟨entries⟩ := m
  simp only [names, insert]
  induction entries with
  | nil => rfl
  | cons entry entries ih =>
    rw [insertEntry]
    split
    · next h => simp [h]
    · next h =>
      have hne : name ≠ entry.1 := Ne.symm h
      by_cases hmem : name ∈ entries.map Prod.fst
      · simp [ih, hne, hmem]
      · simp [ih, hne, hmem]

/-- An insertion does not double a name. -/
theorem nodup_names_insert {m : OrderedMap α} (h : m.names.Nodup) (name : String) (value : α) :
    (m.insert name value).names.Nodup := by
  obtain ⟨entries⟩ := m
  simp only [names, insert] at h ⊢
  induction entries with
  | nil => simp [insertEntry]
  | cons entry entries ih =>
    obtain ⟨hfirst, hrest⟩ := List.nodup_cons.mp h
    rw [insertEntry]
    split
    · next heq =>
      rw [List.map_cons, ← heq]
      exact h
    · next hne =>
      -- What is put in behind the first entry has the new name or one that was there.
      have hmem := mem_names_insert_iff ⟨entries⟩ name entry.1 value
      simp only [names, insert] at hmem
      rw [List.map_cons, List.nodup_cons, hmem]
      exact ⟨fun h => h.elim hne hfirst, ih hrest⟩

/-- An erasure does not double a name. -/
theorem nodup_names_erase {m : OrderedMap α} (h : m.names.Nodup) (name : String) :
    (m.erase name).names.Nodup :=
  h.sublist (List.filter_sublist.map Prod.fst)

end OrderedMap

/-! ## Checked bindings -/

/-- Names with values as bindings from outside. -/
def Table.bindings {β : Type} (entries : List (String × Value β)) : List (Datum × Candidate β) :=
  entries.map fun entry => (.text entry.1, .value entry.2)

/-- Values under names that are not empty are bound, and none of them is refused. -/
theorem Table.update_bindings {β : Type} (table : Table β) {entries : List (String × Value β)}
    (h : ∀ entry ∈ entries, entry.1 ≠ "") :
    table.update (bindings entries) = (none, table.insertAll entries) := by
  induction entries generalizing table with
  | nil => rfl
  | cons entry entries ih =>
    obtain ⟨name, v⟩ := entry
    have hname : name ≠ "" := h (name, v) List.mem_cons_self
    have hdefine : table.define (.text name) (.value v) = .ok (table.insert name v) := by
      unfold define
      split <;> simp_all
    rw [bindings, List.map_cons, update, hdefine]
    exact ih _ fun entry hentry => h entry (List.mem_cons_of_mem _ hentry)

namespace Builtin

variable {β : Type}

/-- The operators are bound by their symbols. -/
theorem mem_operators_iff (name : String) :
    name ∈ (operators : List (String × Value β)).map Prod.fst ↔
      ∃ op : Operator, name = op.symbol := by
  have hall : ∀ op : Operator, op ∈ Operator.all := fun op => by cases op <;> decide
  simp [operators, hall, eq_comm]

/-- No built-in name is empty. -/
theorem operators_ne_empty : ∀ entry ∈ (operators : List (String × Value β)), entry.1 ≠ "" := by
  simp [operators, Operator.all, Operator.symbol]

/-- The only group is `math`. -/
theorem eq_math_of_group? {group : String} {entries : List (String × Value β)}
    (h : group? group = some entries) : group = "math" ∧ entries = math := by
  unfold group? at h
  split at h
  · next hmath => exact ⟨hmath, (Option.some.inj h).symm⟩
  · cases h

/-- No name of a group is empty. -/
theorem group_ne_empty {group : String} {entries : List (String × Value β)}
    (h : group? group = some entries) : ∀ entry ∈ entries, entry.1 ≠ "" := by
  obtain ⟨-, rfl⟩ := eq_math_of_group? h
  simp [math, AngleFunction.all, AngleFunction.name]

/-- The names of groups are put into a table one group after the other. -/
theorem register_snd (table : Table β) (groups : List String) :
    (register table groups).2 =
      groups.foldl (fun table group => table.insertAll ((group? group).getD [])) table := by
  show (List.foldl _ (([] : List String), table) groups).2 =
    List.foldl _ (([] : List String), table).2 groups
  -- What has been registered so far makes no difference to the table.
  generalize (([] : List String), table) = state
  induction groups generalizing state with
  | nil => rfl
  | cons group groups ih =>
    rw [List.foldl_cons, ih, List.foldl_cons]
    cases (group? group : Option (List (String × Value β))) <;> rfl

/-- The names of a table and of the groups that are registered in it. -/
theorem mem_names_register_iff (table : Table β) (groups : List String) (name : String) :
    name ∈ (register table groups).2.names ↔ name ∈ table.names ∨
      ∃ group ∈ groups, ∃ entries : List (String × Value β), group? group = some entries ∧
        name ∈ entries.map Prod.fst := by
  rw [register_snd]
  induction groups generalizing table with
  | nil => simp
  | cons group groups ih =>
    rw [List.foldl_cons, ih, OrderedMap.mem_names_insertAll_iff, or_assoc]
    cases hgroup : (group? group : Option (List (String × Value β))) <;> simp [hgroup]

/-- The operators and registered groups bind a name. -/
def Binds (groups : List String) (name : String) : Prop :=
  (∃ op : Operator, name = op.symbol) ∨
    ∃ group ∈ groups, ∃ entries : List (String × Value Empty), group? group = some entries ∧
      name ∈ entries.map Prod.fst

/-- The names that are known once groups are registered are those of the operators and of the
groups. -/
theorem mem_knownNames_iff (groups : List String) (name : String) :
    name ∈ knownNames groups ↔ Binds groups name := by
  unfold knownNames table operatorTable
  rw [mem_names_register_iff, OrderedMap.mem_names_insertAll_iff, mem_operators_iff]
  simp [OrderedMap.names, OrderedMap.empty, Binds]

/-- Besides the operators, the names of `math` are known if this group is registered. -/
theorem mem_knownNames_iff_math (groups : List String) (name : String) :
    name ∈ knownNames groups ↔ (∃ op : Operator, name = op.symbol) ∨
      "math" ∈ groups ∧ name ∈ (math : List (String × Value Empty)).map Prod.fst := by
  rw [mem_knownNames_iff]
  refine or_congr_right ⟨?_, fun ⟨hmath, hname⟩ => ⟨"math", hmath, math, rfl, hname⟩⟩
  rintro ⟨group, hgroup, entries, hentries, hname⟩
  obtain ⟨rfl, rfl⟩ := eq_math_of_group? hentries
  exact ⟨hgroup, hname⟩

/-- A name that is looked up has a value exactly if it is known. -/
theorem get?_table_eq_none_iff (groups : List String) (name : String) :
    (table groups : Table Empty).get? name = none ↔ name ∉ knownNames groups := by
  unfold knownNames
  rw [OrderedMap.mem_names_iff, Option.eq_none_iff_forall_ne_some]
  simp

end Builtin

end LineCalc
