import LineCalc.Builtin
import LineCalc.Number.Native
import LineCalc.Proofs.Evaluation.Purity

/-!
# Lifting is pointwise

An expression of arithmetic over functions is a function. Its call is the same as the expression
with every function called in its place (`evaluate_call_eq_pointwise`): the operators put closures
together, and these are run with the arguments only afterwards, but each operand gets all of them.

`Value.at` is what an operand gives for arguments, a number itself. Lifting commutes with it
(`Operator.at_of_eval?_two`), so by induction on the expression what its value gives is what the
expression gives pointwise. The failures differ by one layer, and in the same way: the one call of
the closure wraps what failed in it, and in its place each call of a function wraps its own.
-/

namespace LineCalc

variable {β σ : Type}

/-! ## Expressions of arithmetic -/

/-- Numbers and bound names, put together by operators with two operands and by signs with one. -/
inductive Arithmetic (table : Table β) : Expr → Prop
  | number (x : Binary64) : Arithmetic table (.leaf (.number x))
  | name {name : String} {v : Value β} (h : table.get? name = some v) :
    Arithmetic table (.leaf (.identifier name))
  | binary (op : Operator) {left right : Expr} (hleft : Arithmetic table left)
    (hright : Arithmetic table right) :
    Arithmetic table (.call (.leaf (.identifier op.symbol)) [left, right])
  | unary (op : Operator) (h : op.isSign) {operand : Expr}
    (hoperand : Arithmetic table operand) :
    Arithmetic table (.call (.leaf (.identifier op.symbol)) [operand])

mutual

/-- The leaves of an expression that are operands and not callees. -/
def Expr.operands : Expr → List Atom
  | .leaf a => [a]
  | .call _ operands => Expr.operandsList operands

/-- The leaves of several expressions that are operands and not callees. -/
def Expr.operandsList : List Expr → List Atom
  | [] => []
  | e :: es => Expr.operands e ++ Expr.operandsList es

end

mutual

/-- An expression with a call in place of every operand that is a leaf bound to a function. -/
def Expr.pointwise (table : Table β) (arguments : List Expr) : Expr → Expr
  | .leaf a =>
    match a.value table with
    | .ok (.function _) => .call (.leaf a) arguments
    | _ => .leaf a
  | .call callee operands => .call callee (Expr.pointwiseList table arguments operands)

/-- Several expressions with calls in place of functions. -/
def Expr.pointwiseList (table : Table β) (arguments : List Expr) : List Expr → List Expr
  | [] => []
  | e :: es => Expr.pointwise table arguments e :: Expr.pointwiseList table arguments es

end

/-- Some operand of an expression is a leaf bound to a function. -/
def Expr.HasFunction (table : Table β) (e : Expr) : Prop :=
  ∃ a ∈ Expr.operands e, ∃ f, a.value table = .ok (.function f)

section Numerics

variable [Numerics]

/-! ## What a value gives for arguments -/

/-- What an operand gives for arguments: a number itself, and a function its result. -/
def Value.at (host : Host β σ) (arguments : List (Value β)) : Value β → Evaluation β σ (Value β)
  | .number x => return .number x
  | .function f => f.invoke host arguments

/-- Two values always have a result. -/
theorem Operator.exists_eval?_two (op : Operator) (a b : Value β) :
    ∃ v, op.eval? [a, b] = some v := by
  cases a <;> cases b <;> exact ⟨_, rfl⟩

/-- One value has a result for a sign. -/
theorem Operator.exists_eval?_one {op : Operator} (h : op.isSign) (a : Value β) :
    ∃ v, op.eval? [a] = some v := by
  obtain ⟨sign, hsign⟩ := Option.isSome_iff_exists.mp (op.isSome_unary?.trans h)
  cases a with
  | number x => exact ⟨.number (sign x), by simp [Operator.eval?, hsign]⟩
  | function f => exact ⟨.function (.unary op f), by simp [Operator.eval?, hsign]⟩

/-- What the result for two operands gives is the result for what these give. -/
theorem Operator.at_of_eval?_two (host : Host β σ) (arguments : List (Value β)) {op : Operator}
    {a b v : Value β} (hv : op.eval? [a, b] = some v) :
    v.at host arguments = a.at host arguments >>= fun left => b.at host arguments >>= fun right =>
      Evaluation.ofOption [left, right] (op.eval? [left, right]) := by
  cases a with
  | number x =>
    cases b with
    | number y =>
      cases hv
      rfl
    | function g =>
      cases hv
      simp only [Value.at, pure_bind]
      exact Function.invoke_binaryRight host arguments op x g
  | function f =>
    cases b with
    | number y =>
      cases hv
      simp only [Value.at, pure_bind]
      exact Function.invoke_binaryLeft host arguments op f y
    | function g =>
      cases hv
      exact Function.invoke_binary host arguments op f g

/-- What the result for one operand gives is the result for what that gives. -/
theorem Operator.at_of_eval?_one (host : Host β σ) (arguments : List (Value β)) {op : Operator}
    {a v : Value β} (hv : op.eval? [a] = some v) :
    v.at host arguments =
      a.at host arguments >>= fun operand =>
        Evaluation.ofOption [operand] (op.eval? [operand]) := by
  cases a with
  | number x =>
    obtain ⟨sign, hsign, rfl⟩ := Option.map_eq_some_iff.mp hv
    simp only [Value.at, pure_bind]
    rw [hv]
    rfl
  | function f =>
    obtain ⟨sign, hsign, rfl⟩ := Option.map_eq_some_iff.mp hv
    exact Function.invoke_unary host arguments op f

/-! ## Evaluation in place -/

/-- An evaluation gives what a value gives in place of a call of it. If the arguments have values,
this is what the value gives for these, where a failure is that of a call. If the arguments fail, a
function fails as they do, and a number needs none of them. -/
def GivesAt (host : Host β σ) (arguments : Except (Failure β) (List (Value β)))
    (m : Evaluation β σ (Value β)) (v : Value β) : Prop :=
  match arguments with
  | .ok values => ∃ r, (v.at host values).Gives r ∧ m.Gives (r.mapError Failure.wrap)
  | .error failure =>
    m.Gives (match v with
      | .number x => .ok (.number x)
      | .function _ => .error failure)

omit [Numerics] in
/-- Failures of parts are wrapped like failures of the whole. -/
theorem mapError_bind {ε ε' α γ : Type} (f : ε → ε') (r : Except ε α) (k : α → Except ε γ) :
    (r >>= k).mapError f = r.mapError f >>= fun a => (k a).mapError f := by
  cases r <;> rfl

section

variable {host : Host β σ} {arguments : Except (Failure β) (List (Value β))}
  {m n : Evaluation β σ (Value β)} {op : Operator} {a b v : Value β}

/-- An operator between evaluations gives in place what its result for two operands gives. -/
theorem GivesAt.binary (hm : GivesAt host arguments m a) (hn : GivesAt host arguments n b)
    (hv : op.eval? [a, b] = some v) :
    GivesAt host arguments (m >>= fun left => n >>= fun right =>
      (Value.function (.operator op)).apply host [left, right]) v := by
  cases arguments with
  | ok values =>
    obtain ⟨ra, ha, hm⟩ := hm
    obtain ⟨rb, hb, hn⟩ := hn
    refine ⟨ra >>= fun left => rb >>= fun right =>
      Evaluation.resultOf [left, right] (op.eval? [left, right]), ?_, ?_⟩
    · -- The closure runs its operands and applies the operator to what they give.
      rw [Operator.at_of_eval?_two host values hv]
      exact .bind ha fun _ _ => .bind hb fun _ _ => .ofOption _ _
    · -- In place the operator is called, so its own failure is wrapped like those of its operands.
      simp only [mapError_bind]
      refine .bind hm fun left _ => .bind hn fun right _ => ?_
      rw [Value.apply_function, Function.invoke_operator]
      exact .wrapped (.ofOption _ _)
  | error failure =>
    -- The first operand that is a function fails. If there is none, the result is a number.
    cases a with
    | function f => cases b <;> cases hv <;> exact Evaluation.Gives.bind_error hm _
    | number x =>
      refine Evaluation.Gives.bind_ok hm ?_
      cases b with
      | function g =>
        cases hv
        exact Evaluation.Gives.bind_error hn _
      | number y =>
        refine Evaluation.Gives.bind_ok hn ?_
        rw [Value.apply_operator host hv]
        cases hv
        exact .pure _

/-- A sign before an evaluation gives in place what its result for one operand gives. -/
theorem GivesAt.unary (hm : GivesAt host arguments m a) (hv : op.eval? [a] = some v) :
    GivesAt host arguments
      (m >>= fun operand => (Value.function (.operator op)).apply host [operand]) v := by
  cases arguments with
  | ok values =>
    obtain ⟨r, ha, hm⟩ := hm
    refine ⟨r >>= fun operand => Evaluation.resultOf [operand] (op.eval? [operand]), ?_, ?_⟩
    · rw [Operator.at_of_eval?_one host values hv]
      exact .bind ha fun _ _ => .ofOption _ _
    · simp only [mapError_bind]
      refine .bind hm fun operand _ => ?_
      rw [Value.apply_function, Function.invoke_operator]
      exact .wrapped (.ofOption _ _)
  | error failure =>
    cases a with
    | function f =>
      obtain ⟨sign, hsign, rfl⟩ := Option.map_eq_some_iff.mp hv
      exact Evaluation.Gives.bind_error hm _
    | number x =>
      refine Evaluation.Gives.bind_ok hm ?_
      rw [Value.apply_operator host hv]
      obtain ⟨sign, hsign, rfl⟩ := Option.map_eq_some_iff.mp hv
      exact .pure _

end

/-! ## Evaluation of expressions -/

/-- The operators of arithmetic are bound to themselves. -/
def Table.BindsOperators (table : Table β) : Prop :=
  ∀ op : Operator, table.get? op.symbol = some (.function (.operator op))

section

variable {host : Host β σ} {table : Table β} (hoperators : table.BindsOperators)

/-- A leaf is evaluated to its value. -/
theorem evaluate_leaf {a : Atom} {v : Value β} (h : a.value table = .ok v) :
    Expr.evaluate host table (.leaf a) = pure v := by
  unfold Expr.evaluate
  simp only [Tree.evaluate, h]

/-- A call of an expression that has a value applies that to the values of the arguments. -/
theorem evaluate_call {callee : Expr} {v : Value β} (h : Expr.evaluate host table callee = pure v)
    (arguments : List Expr) : Expr.evaluate host table (.call callee arguments) =
      Tree.evaluateList host (Atom.value table) arguments >>= fun values =>
        v.apply host values := by
  have hcallee : Tree.evaluate host (Atom.value table) callee = pure v := h
  unfold Expr.evaluate
  rw [Tree.evaluate, hcallee, pure_bind]

include hoperators

/-- The symbol of an operator has the operator as its value. -/
theorem evaluate_symbol (op : Operator) :
    Expr.evaluate host table (.leaf (.identifier op.symbol)) =
      pure (.function (.operator op)) := by
  refine evaluate_leaf ?_
  show table.lookup op.symbol = _
  unfold Table.lookup
  rw [hoperators op]

/-- An operator between expressions is applied to their values. -/
theorem evaluate_binary (op : Operator) (left right : Expr) :
    Expr.evaluate host table (.call (.leaf (.identifier op.symbol)) [left, right]) =
      Expr.evaluate host table left >>= fun a => Expr.evaluate host table right >>= fun b =>
        (Value.function (.operator op)).apply host [a, b] := by
  rw [evaluate_call (evaluate_symbol hoperators op)]
  unfold Expr.evaluate
  simp only [Tree.evaluateList, pure_bind, bind_assoc]

/-- A sign before an expression is applied to its value. -/
theorem evaluate_unary (op : Operator) (operand : Expr) :
    Expr.evaluate host table (.call (.leaf (.identifier op.symbol)) [operand]) =
      Expr.evaluate host table operand >>= fun a =>
        (Value.function (.operator op)).apply host [a] := by
  rw [evaluate_call (evaluate_symbol hoperators op)]
  unfold Expr.evaluate
  simp only [Tree.evaluateList, pure_bind, bind_assoc]

end

/-- An expression has a value, which is a function if some operand is one, and the expression with
calls in place of functions gives what the value gives in place of a call of it. -/
structure EvaluatesTo (host : Host β σ) (table : Table β) (arguments : List Expr)
    (results : Except (Failure β) (List (Value β))) (e : Expr) (v : Value β) : Prop where
  value : Expr.evaluate host table e = pure v
  function : Expr.HasFunction table e → ∃ f, v = .function f
  pointwise :
    GivesAt host results (Expr.evaluate host table (Expr.pointwise table arguments e)) v

section

variable {host : Host β σ} {table : Table β} {S : β → Prop} {arguments : List Expr}
  {results : Except (Failure β) (List (Value β))}

/-- A leaf with its value. -/
theorem EvaluatesTo.leaf (hpure : host.Pure S) (w : σ)
    (hresults : (Tree.evaluateList host (Atom.value table) arguments).Gives results)
    (hover : ∀ values, results = .ok values → ∀ v ∈ values, v.Over S) {a : Atom} {v : Value β}
    (hv : a.value table = .ok v) (hvover : v.Over S) :
    EvaluatesTo host table arguments results (.leaf a) v where
  value := evaluate_leaf hv
  function := by
    rintro ⟨b, hb, f, hf⟩
    obtain rfl := List.mem_singleton.mp hb
    rw [hv] at hf
    cases hf
    exact ⟨f, rfl⟩
  pointwise := by
    cases v with
    | number x =>
      have hleaf : Expr.pointwise table arguments (.leaf a) = .leaf a := by
        simp only [Expr.pointwise, hv]
      rw [hleaf, evaluate_leaf hv]
      cases results with
      | ok values => exact ⟨.ok (.number x), .pure _, .pure _⟩
      | error failure => exact .pure _
    | function f =>
      have hcall : Expr.pointwise table arguments (.leaf a) = .call (.leaf a) arguments := by
        simp only [Expr.pointwise, hv]
      rw [hcall, evaluate_call (evaluate_leaf hv)]
      cases results with
      | ok values =>
        -- What the function gives is the same wherever the arguments have left the world.
        have hsteady := f.invoke_steady hpure hvover (hover values rfl)
        refine ⟨outcome (f.invoke host values w), hsteady.gives w, hresults.bind_ok ?_⟩
        rw [Value.apply_function]
        exact (hsteady.gives w).wrapped
      | error failure => exact hresults.bind_error _

/-- Two expressions with an operator between them. -/
theorem EvaluatesTo.binary (hoperators : table.BindsOperators) {left right : Expr} {a b : Value β}
    (hleft : EvaluatesTo host table arguments results left a)
    (hright : EvaluatesTo host table arguments results right b) {op : Operator} {v : Value β}
    (hv : op.eval? [a, b] = some v) :
    EvaluatesTo host table arguments results
      (.call (.leaf (.identifier op.symbol)) [left, right]) v where
  value := by
    rw [evaluate_binary hoperators, hleft.value, hright.value]
    simp only [pure_bind]
    exact Value.apply_operator host hv
  function := by
    rintro ⟨c, hc, f, hf⟩
    have hoperand : c ∈ Expr.operands left ++ (Expr.operands right ++ []) := hc
    rw [List.append_nil] at hoperand
    rcases List.mem_append.mp hoperand with hmem | hmem
    · -- An operator with a function on either side is lifted.
      obtain ⟨g, rfl⟩ := hleft.function ⟨c, hmem, f, hf⟩
      cases b <;> cases hv <;> exact ⟨_, rfl⟩
    · obtain ⟨g, rfl⟩ := hright.function ⟨c, hmem, f, hf⟩
      cases a <;> cases hv <;> exact ⟨_, rfl⟩
  pointwise := by
    have hbinary := hleft.pointwise.binary hright.pointwise hv
    rw [← evaluate_binary hoperators] at hbinary
    exact hbinary

/-- A sign before an expression. -/
theorem EvaluatesTo.unary (hoperators : table.BindsOperators) {operand : Expr} {a : Value β}
    (hoperand : EvaluatesTo host table arguments results operand a) {op : Operator} {v : Value β}
    (hv : op.eval? [a] = some v) :
    EvaluatesTo host table arguments results
      (.call (.leaf (.identifier op.symbol)) [operand]) v where
  value := by
    rw [evaluate_unary hoperators, hoperand.value, pure_bind]
    exact Value.apply_operator host hv
  function := by
    rintro ⟨c, hc, f, hf⟩
    have hmem : c ∈ Expr.operands operand ++ [] := hc
    rw [List.append_nil] at hmem
    obtain ⟨g, rfl⟩ := hoperand.function ⟨c, hmem, f, hf⟩
    obtain ⟨sign, -, rfl⟩ := Option.map_eq_some_iff.mp hv
    exact ⟨_, rfl⟩
  pointwise := by
    have hunary := hoperand.pointwise.unary hv
    rw [← evaluate_unary hoperators] at hunary
    exact hunary

/-- An expression of arithmetic over a table has a value, by its operands and operators. -/
theorem Arithmetic.exists_evaluatesTo (hoperators : table.BindsOperators) (hpure : host.Pure S)
    (htable : ∀ name v, table.get? name = some v → v.Over S) (w : σ)
    (hresults : (Tree.evaluateList host (Atom.value table) arguments).Gives results)
    (hover : ∀ values, results = .ok values → ∀ v ∈ values, v.Over S) {e : Expr}
    (he : Arithmetic table e) : ∃ v, EvaluatesTo host table arguments results e v := by
  induction he with
  | number x => exact ⟨.number x, .leaf hpure w hresults hover rfl trivial⟩
  | @name name v h =>
    have hv : (Atom.identifier name).value table = .ok v := by
      show table.lookup name = _
      unfold Table.lookup
      rw [h]
    exact ⟨v, .leaf hpure w hresults hover hv (htable name v h)⟩
  | binary op _ _ ihleft ihright =>
    obtain ⟨a, ha⟩ := ihleft
    obtain ⟨b, hb⟩ := ihright
    obtain ⟨v, hv⟩ := op.exists_eval?_two a b
    exact ⟨v, .binary hoperators ha hb hv⟩
  | unary op h _ ih =>
    obtain ⟨a, ha⟩ := ih
    obtain ⟨v, hv⟩ := Operator.exists_eval?_one h a
    exact ⟨v, .unary hoperators ha hv⟩

end

/-- The call of an expression of arithmetic over functions has the same outcome as the expression
with calls in place of these functions, in whatever worlds the two are evaluated: the same number,
the same function, or the same failure with the same layers around it. -/
theorem evaluate_call_eq_pointwise {host : Host β σ} {table : Table β} {S : β → Prop}
    (hoperators : table.BindsOperators) (hpure : host.Pure S)
    (htable : ∀ name v, table.get? name = some v → v.Over S) {e : Expr}
    (he : Arithmetic table e) (hfunction : Expr.HasFunction table e) (arguments : List Expr)
    (w w' : σ) :
    outcome (Expr.evaluate host table (.call e arguments) w) =
      outcome (Expr.evaluate host table (Expr.pointwise table arguments e) w') := by
  -- The arguments are evaluated once before the call, and in place once for every function.
  have hsteady := Tree.evaluateList_steady hpure (Atom.value_over htable) arguments
  have hresults := hsteady.gives w
  have hover := hsteady.value w
  generalize outcome (Tree.evaluateList host (Atom.value table) arguments w) = results
    at hresults hover
  obtain ⟨v, hv⟩ := he.exists_evaluatesTo hoperators hpure htable w hresults hover
  obtain ⟨f, rfl⟩ := hv.function hfunction
  have hpointwise := hv.pointwise
  rw [evaluate_call hv.value]
  cases results with
  | ok values =>
    obtain ⟨r, hr, hpointwise⟩ := hpointwise
    have hcall : (Tree.evaluateList host (Atom.value table) arguments >>= fun values =>
        (Value.function f).apply host values).Gives (r.mapError Failure.wrap) := by
      refine hresults.bind_ok ?_
      rw [Value.apply_function]
      exact Evaluation.Gives.wrapped hr
    exact (hcall w).trans (hpointwise w').symm
  | error failure =>
    have hcall := hresults.bind_error fun values => (Value.function f).apply host values
    exact (hcall w).trans (hpointwise w').symm

end Numerics

/-- A host with one function, which returns its first argument, empties the list of its arguments
and counts its calls in the world. -/
def firstArgument : Host Unit Nat := fun _ frame =>
  match frame.arguments with
  | [] => .error (.invalidArguments []) ⟨[], frame.world + 1⟩
  | v :: _ => .ok v ⟨[], frame.world + 1⟩

open Native

/-- The negated first argument times a number, called in one piece and in place. -/
theorem evaluate_call_negated_first_argument :
    let table : Table Unit := Builtin.operatorTable.insert "first" (.function (.host ()))
    let first : Expr := .leaf (.identifier "first")
    let pi : Expr := .leaf (.number Builtin.pi)
    let tau : Expr := .leaf (.number Builtin.tau)
    let minus : Expr := .leaf (.identifier "-")
    let times : Expr := .leaf (.identifier "*")
    outcome (Expr.evaluate firstArgument table
        (.call (.call times [.call minus [first], pi]) [tau]) 0) =
      outcome (Expr.evaluate firstArgument table
        (.call times [.call minus [.call first [tau]], pi]) 5) := by
  intro table first pi tau minus times
  have hall : ∀ f : Function Unit, f.Over fun _ => True := by
    intro f
    induction f with
    | binary _ _ _ ihf ihg => exact ⟨ihf, ihg⟩
    | operator | angle | host => trivial
    | unary _ _ ih | binaryLeft _ _ _ ih | binaryRight _ _ _ ih => exact ih
  have hover : ∀ v : Value Unit, v.Over fun _ => True
    | .number _ => trivial
    | .function f => hall f
  have hpure : firstArgument.Pure fun _ => True := by
    refine ⟨fun _ arguments _ _ _ _ => ?_, fun _ _ _ v _ _ _ => hover v⟩
    cases arguments <;> rfl
  have hoperators : table.BindsOperators := by
    intro op
    cases op <;> rfl
  have harithmetic : Arithmetic table (.call times [.call minus [first], pi]) :=
    .binary .multiply (.unary .subtract rfl (.name rfl)) (.number Builtin.pi)
  exact evaluate_call_eq_pointwise hoperators hpure (fun _ v _ => hover v) harithmetic
    ⟨.identifier "first", List.mem_cons_self, .host (), rfl⟩ [tau] 0 5

end LineCalc
