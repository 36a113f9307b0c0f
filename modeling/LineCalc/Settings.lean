import LineCalc.Text.Basic

/-!
# Groups in the environment

Which groups are registered is a setting: a list with commas between its items, or `none` in any
case. Blanks around items do not count, nor do items without other characters. Where there is no
setting the defaults hold.
-/

namespace LineCalc.Settings

/-- The groups where there is no setting. -/
def defaultGroups : List String :=
  ["math"]

/-- Whether a text is one that turns the whole list off. -/
def isOff (cs : List Char) : Bool :=
  let word := (Text.trim cs).map Char.toLower
  word.isEmpty || word == ['n', 'o', 'n', 'e']

/-- The items of a list as it is set. -/
def items (cs : List Char) : List String :=
  if isOff cs then []
  else ((cs.splitOn ',').map Text.trim).filterMap fun part =>
    if part.isEmpty then none else some (String.ofList part)

/-- The items of a list that may be set or not. -/
def itemsOr (defaults : List String) : Option String → List String
  | none => defaults
  | some setting => items setting.toList

/-- The groups that a setting asks for. -/
def groups (setting : Option String) : List String :=
  itemsOr defaultGroups setting

end LineCalc.Settings
