import LineCalc.Builtin
import LineCalc.Number.Native
import LineCalc.Proofs.Evaluation.Record
import LineCalc.Script

/-!
# Evaluation from left to right

An expression is written as a sequence of instructions: a leaf stands for itself, and a call is the
sequence of its callee, those of its arguments and then an instruction that applies the one to the
others. A stack machine executes the sequence from left to right and stops at the first instruction
that fails.

What an evaluation does beside its effects on the world is to look up names and to invoke functions.
`Expr.watch` is the recursion of the evaluation with a record of this, and the evaluation is what
is left of it without the record (`Expr.watch_forgets`). The machine keeps the same record: after
the sequence of an expression it has the value on its stack or has failed as the evaluation did,
with the same record and in the same world (`Expr.execute_code_append`).
-/

namespace LineCalc

variable {α β σ τ : Type}

/-! ## Expressions on record -/

open Evaluation (watched Forgets)

/-- The event of getting the value of an atom: a name is looked up. -/
def Atom.events : Atom → List (Event β)
  | .number _ => []
  | .identifier name => [.lookup name]

/-- The event of applying a value to arguments: a function is invoked. -/
def Value.events (arguments : List (Value β)) : Value β → List (Event β)
  | .number _ => []
  | .function f => [.invoke f arguments]

namespace Tree

mutual

/-- The recursion of an evaluation, for any way to get the value of a leaf and to apply a value. -/
def evaluateBy (leaf : α → Evaluation β τ (Value β))
    (apply : Value β → List (Value β) → Evaluation β τ (Value β)) :
    Tree α → Evaluation β τ (Value β)
  | .leaf a => leaf a
  | .call callee arguments => do
    let callee ← evaluateBy leaf apply callee
    let arguments ← evaluateListBy leaf apply arguments
    apply callee arguments

/-- The recursion of an evaluation of several trees. -/
def evaluateListBy (leaf : α → Evaluation β τ (Value β))
    (apply : Value β → List (Value β) → Evaluation β τ (Value β)) :
    List (Tree α) → Evaluation β τ (List (Value β))
  | [] => return []
  | tree :: trees => do
    let v ← evaluateBy leaf apply tree
    return v :: (← evaluateListBy leaf apply trees)

end

section

variable {leaf : α → Evaluation β (Record β σ) (Value β)} {leaf' : α → Evaluation β σ (Value β)}
  {apply : Value β → List (Value β) → Evaluation β (Record β σ) (Value β)}
  {apply' : Value β → List (Value β) → Evaluation β σ (Value β)}

mutual

/-- The record of a tree is forgotten if those of its leaves and calls are. -/
theorem evaluateBy_forgets (hleaf : ∀ a, Forgets (leaf a) (leaf' a))
    (happly : ∀ v vs, Forgets (apply v vs) (apply' v vs)) :
    (tree : Tree α) → Forgets (tree.evaluateBy leaf apply) (tree.evaluateBy leaf' apply')
  | .leaf a => by
    rw [evaluateBy, evaluateBy]
    exact hleaf a
  | .call callee arguments => by
    rw [evaluateBy, evaluateBy]
    exact (evaluateBy_forgets hleaf happly callee).bind fun f =>
      (evaluateListBy_forgets hleaf happly arguments).bind fun vs => happly f vs

/-- The record of several trees is forgotten if those of their leaves and calls are. -/
theorem evaluateListBy_forgets (hleaf : ∀ a, Forgets (leaf a) (leaf' a))
    (happly : ∀ v vs, Forgets (apply v vs) (apply' v vs)) : (trees : List (Tree α)) →
    Forgets (evaluateListBy leaf apply trees) (evaluateListBy leaf' apply' trees)
  | [] => by
    rw [evaluateListBy, evaluateListBy]
    exact .pure []
  | tree :: trees => by
    rw [evaluateListBy, evaluateListBy]
    exact (evaluateBy_forgets hleaf happly tree).bind fun v =>
      (evaluateListBy_forgets hleaf happly trees).bind fun vs => .pure (v :: vs)

end

end

end Tree

section Numerics

variable [Numerics]

namespace Tree

mutual

/-- This is the recursion of the evaluation. -/
theorem evaluate_eq_by (host : Host β σ) (leaf : α → Except (Failure β) (Value β)) :
    (tree : Tree α) → tree.evaluate host leaf =
      tree.evaluateBy (fun a => ofExcept (leaf a)) (fun v vs => v.apply host vs)
  | .leaf a => by
    rw [evaluate, evaluateBy]
    cases leaf a <;> rfl
  | .call callee arguments => by
    rw [evaluate, evaluateBy, evaluate_eq_by host leaf callee,
      evaluateList_eq_by host leaf arguments]

/-- This is the recursion of the evaluation of several trees. -/
theorem evaluateList_eq_by (host : Host β σ) (leaf : α → Except (Failure β) (Value β)) :
    (trees : List (Tree α)) → evaluateList host leaf trees =
      evaluateListBy (fun a => ofExcept (leaf a)) (fun v vs => v.apply host vs) trees
  | [] => by rw [evaluateList, evaluateListBy]
  | tree :: trees => by
    rw [evaluateList, evaluateListBy, evaluate_eq_by host leaf tree,
      evaluateList_eq_by host leaf trees]

end

end Tree

namespace Expr

/-- The value of an atom over a table, on record. -/
def watchAtom (table : Table β) (a : Atom) : Evaluation β (Record β σ) (Value β) :=
  watched a.events (ofExcept (a.value table))

/-- The application of a value, on record. -/
def watchApply (host : Host β σ) (v : Value β) (arguments : List (Value β)) :
    Evaluation β (Record β σ) (Value β) :=
  watched (v.events arguments) (v.apply host arguments)

/-- The evaluation of an expression, on record. -/
def watch (host : Host β σ) (table : Table β) (expr : Expr) :
    Evaluation β (Record β σ) (Value β) :=
  Tree.evaluateBy (watchAtom table) (watchApply host) expr

/-- The evaluation of several expressions, on record. -/
def watchList (host : Host β σ) (table : Table β) (exprs : List Expr) :
    Evaluation β (Record β σ) (List (Value β)) :=
  Tree.evaluateListBy (watchAtom table) (watchApply host) exprs

/-- A leaf on record is its atom. -/
theorem watch_leaf (host : Host β σ) (table : Table β) (a : Atom) :
    watch host table (.leaf a) = watchAtom table a := by
  rw [watch, Tree.evaluateBy]

/-- A call on record is its callee, its arguments and their application. -/
theorem watch_call (host : Host β σ) (table : Table β) (callee : Expr) (arguments : List Expr) :
    watch host table (.call callee arguments) =
      watch host table callee >>= fun f =>
        watchList host table arguments >>= fun vs => watchApply host f vs := by
  rw [watch, Tree.evaluateBy]
  rfl

/-- Several expressions on record are one after the other. -/
theorem watchList_cons (host : Host β σ) (table : Table β) (expr : Expr) (exprs : List Expr) :
    watchList host table (expr :: exprs) =
      watch host table expr >>= fun v =>
        watchList host table exprs >>= fun vs => pure (v :: vs) := by
  rw [watchList, Tree.evaluateListBy]
  rfl

/-- The evaluation of an expression is that on record without the record. -/
theorem watch_forgets (host : Host β σ) (table : Table β) (expr : Expr) :
    Forgets (expr.watch host table) (expr.evaluate host table) := by
  unfold watch evaluate
  rw [Tree.evaluate_eq_by]
  exact Tree.evaluateBy_forgets (fun a => .watched _ _) (fun v vs => .watched _ _) expr

end Expr

/-! ## The machine -/

/-- An instruction of the machine. -/
inductive Instruction where
  /-- Puts a number on the stack. -/
  | push (x : Binary64)
  /-- Looks up a name and puts its value on the stack. -/
  | lookup (name : String)
  /-- Takes as many arguments from the stack, then what is to be applied to them. -/
  | apply (count : Nat)
deriving DecidableEq

/-- Where an execution has come to. -/
inductive Progress (β σ : Type) where
  /-- All instructions so far are done, and these values are on the stack, the last one first. -/
  | running (stack : List (Value β)) (record : Record β σ)
  /-- An instruction has failed. -/
  | failed (failure : Failure β) (record : Record β σ)
  /-- There were not enough values on the stack. -/
  | stuck

mutual

/-- The instructions of an expression. -/
def Expr.code : Expr → List Instruction
  | .leaf (.number x) => [.push x]
  | .leaf (.identifier name) => [.lookup name]
  | .call callee arguments =>
    Expr.code callee ++ (Expr.codeList arguments ++ [.apply arguments.length])

/-- The instructions of several expressions, one after the other. -/
def Expr.codeList : List Expr → List Instruction
  | [] => []
  | expr :: exprs => Expr.code expr ++ Expr.codeList exprs

end

namespace Instruction

/-- The execution of one instruction. Whether a value is a function matters only when it is
applied. -/
def step (host : Host β σ) (table : Table β) (stack : List (Value β)) (record : Record β σ) :
    Instruction → Progress β σ
  | push x => .running (.number x :: stack) record
  | lookup name =>
    let record := { record with events := record.events ++ [.lookup name] }
    match table.get? name with
    | some v => .running (v :: stack) record
    | none => .failed (.undefinedIdentifier name) record
  | apply count =>
    let arguments := (stack.take count).reverse
    match stack.drop count with
    | .function f :: below =>
      let events := record.events ++ [.invoke f arguments]
      match f.invoke host arguments record.world with
      | .ok v world => .running (v :: below) ⟨world, events⟩
      | .error failure world => .failed failure.wrap ⟨world, events⟩
    | .number x :: _ => .failed (.callFailure (.invalidFunction x)) record
    | [] => .stuck

/-- The execution of instructions from left to right, up to the first that fails. -/
def execute (host : Host β σ) (table : Table β) :
    List Instruction → List (Value β) → Record β σ → Progress β σ
  | [], stack, record => .running stack record
  | instruction :: code, stack, record =>
    match instruction.step host table stack record with
    | .running stack record => execute host table code stack record
    | .failed failure record => .failed failure record
    | .stuck => .stuck

end Instruction

/-! ## What the machine comes to -/

/-- Goes on after an evaluation on record, or fails as it does. -/
def Progress.resume (result : EStateM.Result (Failure β) (Record β σ) α)
    (next : α → Record β σ → Progress β σ) : Progress β σ :=
  match result with
  | .ok a record => next a record
  | .error failure record => .failed failure record

namespace Progress

omit [Numerics] in
/-- What goes on after two evaluations goes on after the second one, where that goes on after the
first. -/
theorem resume_bind {γ : Type} (m : Evaluation β (Record β σ) α)
    (k : α → Evaluation β (Record β σ) γ) (record : Record β σ)
    (next : γ → Record β σ → Progress β σ) :
    resume ((m >>= k) record) next =
      resume (m record) fun a record => resume (k a record) next := by
  rw [Evaluation.bind_apply]
  cases m record <;> rfl

omit [Numerics] in
/-- What goes on matters only after a value. -/
theorem resume_congr {result : EStateM.Result (Failure β) (Record β σ) α}
    {next next' : α → Record β σ → Progress β σ}
    (h : ∀ a record, result = .ok a record → next a record = next' a record) :
    resume result next = resume result next' := by
  cases result with
  | ok a record => exact h a record rfl
  | error failure record => rfl

end Progress

open Progress (resume resume_bind resume_congr)
open Instruction (execute)

section

variable {host : Host β σ} {table : Table β}

/-- Several expressions have as many values. -/
theorem Expr.length_watchList : ∀ {exprs : List Expr} {vs : List (Value β)}
    {record record' : Record β σ}, watchList host table exprs record = .ok vs record' →
      vs.length = exprs.length
  | [], vs, record, record', h => by
    cases h
    rfl
  | expr :: exprs, vs, record, record', h => by
    rw [watchList_cons] at h
    obtain ⟨v, middle, -, hrest⟩ := Evaluation.bind_eq_ok.mp h
    obtain ⟨us, last, hus, hlast⟩ := Evaluation.bind_eq_ok.mp hrest
    cases hlast
    rw [List.length_cons, List.length_cons, length_watchList hus]

/-- The machine puts the value of a leaf on the stack. -/
theorem Instruction.execute_leaf (a : Atom) (rest : List Instruction) (stack : List (Value β))
    (record : Record β σ) :
    execute host table (Expr.code (.leaf a) ++ rest) stack record =
      resume (Expr.watchAtom table a record) fun v => execute host table rest (v :: stack) := by
  cases a with
  | number x =>
    show execute host table rest (.number x :: stack) record = _
    unfold Expr.watchAtom watched Atom.events
    rw [List.append_nil]
    rfl
  | identifier name =>
    rw [Expr.code, List.singleton_append, execute, step]
    unfold Expr.watchAtom watched Atom.value Table.lookup
    dsimp only
    cases table.get? name <;> rfl

/-- The machine applies what is below the arguments to these. -/
theorem Instruction.execute_apply (callee : Value β) (arguments : List (Value β))
    (rest : List Instruction) (stack : List (Value β)) (record : Record β σ) :
    execute host table (.apply arguments.length :: rest) (arguments.reverse ++ callee :: stack)
        record =
      resume (Expr.watchApply host callee arguments record) fun v =>
        execute host table rest (v :: stack) := by
  have hlength : arguments.reverse.length = arguments.length := List.length_reverse
  have htake : ((arguments.reverse ++ callee :: stack).take arguments.length).reverse =
      arguments := by
    rw [List.take_left' hlength, List.reverse_reverse]
  have hdrop : (arguments.reverse ++ callee :: stack).drop arguments.length = callee :: stack :=
    List.drop_left' hlength
  rw [execute, step, htake, hdrop]
  unfold Expr.watchApply watched
  cases callee with
  | number x =>
    rw [Value.apply_number, Value.events, List.append_nil]
    rfl
  | function f =>
    rw [Value.apply_function, Evaluation.wrapped]
    dsimp only
    cases f.invoke host arguments record.world <;> rfl

mutual

/-- The machine executes the instructions of an expression as the expression is evaluated, and goes
on with its value on the stack. -/
theorem Expr.execute_code_append : ∀ (expr : Expr) (rest : List Instruction)
    (stack : List (Value β)) (record : Record β σ),
    execute host table (expr.code ++ rest) stack record =
      resume (expr.watch host table record) fun v => execute host table rest (v :: stack)
  | .leaf a, rest, stack, record => by
    rw [Instruction.execute_leaf, watch_leaf]
  | .call callee arguments, rest, stack, record => by
    rw [code, List.append_assoc, List.append_assoc, execute_code_append callee, watch_call,
      resume_bind]
    refine resume_congr fun f record _ => ?_
    rw [execute_codeList_append arguments, resume_bind]
    refine resume_congr fun vs record hvs => ?_
    rw [List.singleton_append, ← length_watchList hvs, Instruction.execute_apply]

/-- The machine executes the instructions of several expressions as these are evaluated, and goes on
with their values on the stack, the last one first. -/
theorem Expr.execute_codeList_append : ∀ (exprs : List Expr) (rest : List Instruction)
    (stack : List (Value β)) (record : Record β σ),
    execute host table (codeList exprs ++ rest) stack record =
      resume (watchList host table exprs record) fun vs =>
        execute host table rest (vs.reverse ++ stack)
  | [], rest, stack, record => rfl
  | expr :: exprs, rest, stack, record => by
    rw [codeList, List.append_assoc, execute_code_append expr, watchList_cons, resume_bind]
    refine resume_congr fun v record _ => ?_
    rw [execute_codeList_append exprs, resume_bind]
    refine resume_congr fun vs record _ => ?_
    show _ = execute host table rest ((v :: vs).reverse ++ stack) record
    rw [List.reverse_cons, List.append_assoc, List.singleton_append]

end

end

/-- A failed execution is one of some instructions that are done, and one that fails. -/
theorem Instruction.exists_failed {host : Host β σ} {table : Table β} {failure : Failure β}
    {after : Record β σ} : ∀ {code : List Instruction} {stack : List (Value β)}
    {record : Record β σ}, execute host table code stack record = .failed failure after →
    ∃ done instruction rest stack' record', code = done ++ instruction :: rest ∧
      execute host table done stack record = .running stack' record' ∧
      instruction.step host table stack' record' = .failed failure after
  | [], stack, record, h => by
    rw [execute] at h
    cases h
  | instruction :: code, stack, record, h => by
    cases hstep : instruction.step host table stack record with
    | running stack' record' =>
      rw [execute, hstep] at h
      obtain ⟨done, i, rest, stack'', record'', rfl, hdone, hi⟩ := exists_failed h
      refine ⟨instruction :: done, i, rest, stack'', record'', rfl, ?_, hi⟩
      rw [execute, hstep]
      exact hdone
    | failed failure' after' =>
      rw [execute, hstep] at h
      cases h
      exact ⟨[], instruction, code, stack, record, rfl, rfl, hstep⟩
    | stuck =>
      rw [execute, hstep] at h
      cases h

/-- The evaluation of an expression on record is the execution of its instructions from left to
right: with its value alone on the stack in the end, or up to the first instruction that fails, with
the same world and the same record. Without the record it is the evaluation of the expression. -/
theorem Expr.execute_code (host : Host β σ) (table : Table β) (expr : Expr) (w : σ) :
    expr.evaluate host table w = Evaluation.forget (expr.watch host table ⟨w, []⟩) ∧
      match expr.watch host table ⟨w, []⟩ with
      | .ok v record => execute host table expr.code [] ⟨w, []⟩ = .running [v] record
      | .error failure record =>
        execute host table expr.code [] ⟨w, []⟩ = .failed failure record ∧
          ∃ done instruction rest stack middle, expr.code = done ++ instruction :: rest ∧
            execute host table done [] ⟨w, []⟩ = .running stack middle ∧
            instruction.step host table stack middle = .failed failure record := by
  refine ⟨(expr.watch_forgets host table ⟨w, []⟩).symm, ?_⟩
  have hcode : execute host table (expr.code ++ []) [] ⟨w, []⟩ =
      resume (expr.watch host table ⟨w, []⟩) fun v => execute host table [] [v] :=
    expr.execute_code_append [] [] ⟨w, []⟩
  rw [List.append_nil] at hcode
  cases hwatch : expr.watch host table ⟨w, []⟩ with
  | ok v record =>
    rw [hwatch] at hcode
    exact hcode
  | error failure record =>
    rw [hwatch] at hcode
    exact ⟨hcode, Instruction.exists_failed hcode⟩

end Numerics

open Native

/-- The sum of `a()`, `b` and `c()`, where `b` is not bound. -/
example :
    let a : Function Script := .host (.const (.number Builtin.pi))
    let table : Table Script :=
      ⟨[("+", .function (.operator .add)), ("a", .function a), ("c", .function a)]⟩
    let expr : Expr := .call (.leaf (.identifier "+"))
      [.call (.leaf (.identifier "a")) [], .leaf (.identifier "b"),
        .call (.leaf (.identifier "c")) []]
    Instruction.execute Script.host table expr.code [] ⟨⟨table, []⟩, []⟩ =
      .failed (.undefinedIdentifier "b")
        ⟨⟨table, []⟩, [.lookup "+", .lookup "a", .invoke a [], .lookup "b"]⟩ := rfl

end LineCalc
