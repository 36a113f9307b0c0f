/-!
# Maps in order of insertion

A list of names with values. A name that is put in again keeps its place.
-/

namespace LineCalc

/-- Names with values, in the order in which the names came in. -/
structure OrderedMap (α : Type) where
  /-- The names with their values. -/
  entries : List (String × α)
deriving Inhabited

namespace OrderedMap

variable {α : Type}

/-- The map without names. -/
def empty : OrderedMap α :=
  ⟨[]⟩

/-- The names in order. -/
def names (m : OrderedMap α) : List String :=
  m.entries.map Prod.fst

/-- How many names there are. -/
def size (m : OrderedMap α) : Nat :=
  m.entries.length

/-- The value of a name. -/
def get? (m : OrderedMap α) (name : String) : Option α :=
  m.entries.lookup name

/-- Whether a name has a value. -/
def contains (m : OrderedMap α) (name : String) : Bool :=
  (m.get? name).isSome

/-- Entries with another value for a name, which comes last if it is new. -/
def insertEntry (name : String) (value : α) : List (String × α) → List (String × α)
  | [] => [(name, value)]
  | entry :: entries =>
    if entry.1 = name then (name, value) :: entries else entry :: insertEntry name value entries

/-- The map with a value for a name. -/
def insert (m : OrderedMap α) (name : String) (value : α) : OrderedMap α :=
  ⟨insertEntry name value m.entries⟩

/-- The map with the given values one after the other. -/
def insertAll (m : OrderedMap α) (entries : List (String × α)) : OrderedMap α :=
  entries.foldl (fun m entry => m.insert entry.1 entry.2) m

/-- The map without a name. -/
def erase (m : OrderedMap α) (name : String) : OrderedMap α :=
  ⟨m.entries.filter fun entry => entry.1 ≠ name⟩

/-! ## What an insertion changes -/

/-- The name that was put in has the value. -/
theorem get?_insert_self (m : OrderedMap α) (name : String) (value : α) :
    (m.insert name value).get? name = some value := by
  simp only [get?, insert]
  induction m.entries with
  | nil => simp [insertEntry]
  | cons entry entries ih =>
    obtain ⟨first, old⟩ := entry
    rw [insertEntry]
    split
    · simp
    · next h =>
      have hne : (name == first) = false := beq_eq_false_iff_ne.mpr (Ne.symm h)
      simpa only [List.lookup_cons, hne] using ih

/-- The other names keep their values. -/
theorem get?_insert_of_ne {m : OrderedMap α} {name other : String} (h : other ≠ name) (value : α) :
    (m.insert name value).get? other = m.get? other := by
  have hne : (other == name) = false := beq_eq_false_iff_ne.mpr h
  simp only [get?, insert]
  induction m.entries with
  | nil => simp [insertEntry, List.lookup_cons, hne]
  | cons entry entries ih =>
    obtain ⟨first, old⟩ := entry
    rw [insertEntry]
    split
    · next heq =>
      obtain rfl : first = name := heq
      simp only [List.lookup_cons, hne]
    · simp only [List.lookup_cons, ih]

/-! ## What an erasure changes -/

/-- The name that was taken out has no value. -/
theorem get?_erase_self (m : OrderedMap α) (name : String) : (m.erase name).get? name = none := by
  simp only [get?, erase]
  rw [List.lookup_eq_none_iff]
  intro entry hentry
  have hne : entry.1 ≠ name := of_decide_eq_true (List.mem_filter.mp hentry).2
  exact bne_iff_ne.mpr hne.symm

/-- The other names keep their values. -/
theorem get?_erase_of_ne {m : OrderedMap α} {name other : String} (h : other ≠ name) :
    (m.erase name).get? other = m.get? other := by
  simp only [get?, erase]
  induction m.entries with
  | nil => rfl
  | cons entry entries ih =>
    obtain ⟨first, value⟩ := entry
    by_cases hfirst : first = name
    · have hne : (other == first) = false := beq_eq_false_iff_ne.mpr (hfirst ▸ h)
      rw [List.filter_cons_of_neg (by simpa using hfirst), List.lookup_cons, hne, ih]
    · rw [List.filter_cons_of_pos (by simpa using hfirst), List.lookup_cons, List.lookup_cons, ih]

end OrderedMap

end LineCalc
