import LineCalc.Token
import LineCalc.Token.Literal

/-!
# Trees of calls

An expression is a leaf or a call of an expression with arguments. Operators are calls of leaves
that name them. A parsed tree has tokens at its leaves; what the tokens stand for is a number or
a name.
-/

namespace LineCalc

/-- A leaf, or a call with its callee and its arguments in order. -/
inductive Tree (α : Type) where
  | leaf (a : α)
  | call (callee : Tree α) (arguments : List (Tree α))
deriving Inhabited

namespace Tree

variable {α β : Type}

mutual

/-- The tree of the same shape with other leaves. -/
def map (f : α → β) : Tree α → Tree β
  | .leaf a => .leaf (f a)
  | .call callee arguments => .call (map f callee) (mapList f arguments)

/-- The trees of the same shapes with other leaves. -/
def mapList (f : α → β) : List (Tree α) → List (Tree β)
  | [] => []
  | tree :: trees => map f tree :: mapList f trees

end

mutual

/-- The leaves in order, those of a callee before those of its arguments. -/
def leaves : Tree α → List α
  | .leaf a => [a]
  | .call callee arguments => leaves callee ++ leavesList arguments

/-- The leaves of several trees in order. -/
def leavesList : List (Tree α) → List α
  | [] => []
  | tree :: trees => leaves tree ++ leavesList trees

end

/-- Several trees are mapped one by one. -/
theorem mapList_eq_map (f : α → β) (trees : List (Tree α)) :
    mapList f trees = trees.map (map f) := by
  induction trees with
  | nil => rfl
  | cons tree trees ih => simp [mapList, ih]

/-- The leaves of several trees are those of one after another. -/
theorem leavesList_eq_flatMap (trees : List (Tree α)) :
    leavesList trees = trees.flatMap leaves := by
  induction trees with
  | nil => rfl
  | cons tree trees ih => simp [leavesList, ih]

end Tree

/-- A parsed tree. -/
abbrev SyntaxTree := Tree Token

/-- What a leaf stands for. -/
inductive Atom where
  | number (value : Binary64)
  | identifier (name : String)
deriving DecidableEq, Inhabited

/-- An expression. -/
abbrev Expr := Tree Atom

namespace Atom

/-- What a token stands for: a number by its value, all else by its characters. -/
def ofToken (token : Token) : Atom :=
  if token.kind = .number then .number (Literal.toBinary64 token.lexeme.toList)
  else .identifier token.lexeme

end Atom

end LineCalc
