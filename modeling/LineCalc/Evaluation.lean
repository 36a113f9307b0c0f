import LineCalc.Call

/-!
# Evaluation of trees

A leaf has a value or fails. A call evaluates its callee, then its arguments from left to right,
and applies the one to the others. The first failure ends the evaluation.
-/

namespace LineCalc

variable {α β σ : Type} [Numerics]

namespace Tree

mutual

/-- The value of a tree, given the values of its leaves. -/
def evaluate (host : Host β σ) (leaf : α → Except (Failure β) (Value β)) :
    Tree α → Evaluation β σ (Value β)
  | .leaf a =>
    match leaf a with
    | .ok v => return v
    | .error failure => throw failure
  | .call callee arguments => do
    let callee ← evaluate host leaf callee
    let arguments ← evaluateList host leaf arguments
    callee.apply host arguments

/-- The values of several trees, evaluated from left to right. -/
def evaluateList (host : Host β σ) (leaf : α → Except (Failure β) (Value β)) :
    List (Tree α) → Evaluation β σ (List (Value β))
  | [] => return []
  | tree :: trees => do
    let v ← evaluate host leaf tree
    return v :: (← evaluateList host leaf trees)

end

end Tree

/-- The value of an atom: names are looked up in a table. -/
def Atom.value (table : Table β) : Atom → Except (Failure β) (Value β)
  | .number x => .ok (.number x)
  | .identifier name => table.lookup name

/-- The value of a leaf that a host made, which may be no atom at all. -/
def Atom.valueOf (table : Table β) : Datum ⊕ Atom → Except (Failure β) (Value β)
  | .inl datum =>
    match datum.display with
    | .ok shown => .error (.invalidTree shown)
    | .error e => .error (.raised e)
  | .inr atom => atom.value table

/-- The value of an expression over a table. -/
def Expr.evaluate (host : Host β σ) (table : Table β) (expr : Expr) : Evaluation β σ (Value β) :=
  Tree.evaluate host (Atom.value table) expr

end LineCalc
