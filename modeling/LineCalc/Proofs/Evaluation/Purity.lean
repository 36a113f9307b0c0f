import LineCalc.Proofs.Evaluation.Outcome

/-!
# Pure functions

A host is pure on some of its functions if what these give depends on nothing but their arguments,
and neither their results nor those of anything made of them lead out of them (`Host.Pure`). Over
such functions a whole evaluation gives the same in every world (`evaluate_steady`), although it
may change the world: each part of it gives the same wherever the parts before it have left off.
-/

namespace LineCalc

variable {α β σ : Type}

/-! ## Values over some functions of a host -/

/-- A function is made of the host functions in `S` alone. -/
def Function.Over (S : β → Prop) : Function β → Prop
  | .operator _ => True
  | .angle _ => True
  | .host b => S b
  | .unary _ f => f.Over S
  | .binary _ f g => f.Over S ∧ g.Over S
  | .binaryLeft _ f _ => f.Over S
  | .binaryRight _ _ g => g.Over S

/-- A value is a number, or a function made of the host functions in `S` alone. -/
def Value.Over (S : β → Prop) : Value β → Prop
  | .number _ => True
  | .function f => f.Over S

/-- The functions of a host in `S` are pure: what one of them gives for arguments over `S` is the
same in every world, and if it is a value then one over `S`. -/
structure Host.Pure (host : Host β σ) (S : β → Prop) : Prop where
  same : ∀ b arguments w w', S b → (∀ v ∈ arguments, v.Over S) →
    outcome (host b ⟨arguments, w⟩) = outcome (host b ⟨arguments, w'⟩)
  value : ∀ b arguments w v, S b → (∀ v ∈ arguments, v.Over S) →
    outcome (host b ⟨arguments, w⟩) = .ok v → v.Over S

variable {S : β → Prop}

/-- The values of the atoms over a table are those of the table. -/
theorem Atom.value_over {table : Table β} (htable : ∀ name v, table.get? name = some v → v.Over S)
    (a : Atom) (v : Value β) (hv : a.value table = .ok v) : v.Over S := by
  cases a with
  | number x =>
    cases hv
    trivial
  | identifier name =>
    have hv : table.lookup name = .ok v := hv
    unfold Table.lookup at hv
    cases hname : table.get? name with
    | none =>
      rw [hname] at hv
      cases hv
    | some v' =>
      rw [hname] at hv
      cases hv
      exact htable name v hname

variable [Numerics]

/-- An operator leads to nothing that its operands are not over. -/
theorem Operator.eval?_over {op : Operator} {values : List (Value β)}
    (h : ∀ v ∈ values, v.Over S) {v : Value β} (hv : op.eval? values = some v) : v.Over S := by
  -- Numbers give a number, and a closure is made of the functions among the operands.
  unfold Operator.eval? at hv
  split at hv
  · cases hv
    trivial
  · next f g =>
    cases hv
    exact ⟨h (.function f) (by simp), h (.function g) (by simp)⟩
  · next x g =>
    cases hv
    exact h (.function g) (by simp)
  · next f y =>
    cases hv
    exact h (.function f) (by simp)
  · obtain ⟨sign, -, rfl⟩ := Option.map_eq_some_iff.mp hv
    trivial
  · next f =>
    obtain ⟨sign, -, rfl⟩ := Option.map_eq_some_iff.mp hv
    exact h (.function f) (by simp)
  · cases hv

/-- A function of an angle leads to numbers. -/
theorem AngleFunction.eval?_over {f : AngleFunction} {values : List (Value β)} {v : Value β}
    (hv : f.eval? values = some v) : v.Over S := by
  unfold AngleFunction.eval? at hv
  split at hv
  · cases hv
    trivial
  · cases hv

/-! ## Steadiness -/

section

variable {host : Host β σ} (hpure : host.Pure S)
include hpure

/-- A function over pure functions is steady. -/
theorem Function.invoke_steady {f : Function β} (hf : f.Over S) {arguments : List (Value β)}
    (harguments : ∀ v ∈ arguments, v.Over S) :
    Evaluation.Steady (f.invoke host arguments) (Value.Over S) := by
  induction f with
  | operator op =>
    rw [invoke_operator]
    exact .ofOption fun v hv => Operator.eval?_over harguments hv
  | angle f =>
    rw [invoke_angle]
    exact .ofOption fun v hv => AngleFunction.eval?_over hv
  | host b =>
    -- The frame of the call starts with the arguments, whatever the host does to them later.
    have houtcome : ∀ w, outcome ((Function.host b).invoke host arguments w) =
        outcome (host b ⟨arguments, w⟩) := by
      intro w
      rw [invoke_eq_run]
      show outcome (Call.run (host b) arguments w) = _
      unfold Call.run
      cases host b ⟨arguments, w⟩ <;> rfl
    constructor
    · intro w w'
      rw [houtcome, houtcome]
      exact hpure.same b arguments w w' hf harguments
    · intro w v hv
      rw [houtcome] at hv
      exact hpure.value b arguments w v hf harguments hv
  | unary op f ih =>
    rw [invoke_unary]
    refine .bind (ih hf) fun v hv => .ofOption fun _ => Operator.eval?_over ?_
    simpa using hv
  | binary op f g ihf ihg =>
    rw [invoke_binary]
    refine .bind (ihf hf.1) fun left hleft => .bind (ihg hf.2) fun right hright => ?_
    refine .ofOption fun _ => Operator.eval?_over ?_
    simpa using ⟨hleft, hright⟩
  | binaryLeft op f y ih =>
    rw [invoke_binaryLeft]
    refine .bind (ih hf) fun left hleft => .ofOption fun _ => Operator.eval?_over ?_
    simpa [Value.Over] using hleft
  | binaryRight op x g ih =>
    rw [invoke_binaryRight]
    refine .bind (ih hf) fun right hright => .ofOption fun _ => Operator.eval?_over ?_
    simpa [Value.Over] using hright

/-- The application of a value over pure functions is steady. -/
theorem Value.apply_steady {callee : Value β} (hcallee : callee.Over S)
    {arguments : List (Value β)} (harguments : ∀ v ∈ arguments, v.Over S) :
    Evaluation.Steady (callee.apply host arguments) (Value.Over S) := by
  cases callee with
  | number x =>
    rw [Value.apply_number]
    exact .throw _
  | function f =>
    rw [Value.apply_function]
    exact .wrapped (f.invoke_steady hpure hcallee harguments)

end

mutual

/-- The evaluation of a tree over pure functions is steady. -/
theorem Tree.evaluate_steady {host : Host β σ} (hpure : host.Pure S)
    {leaf : α → Except (Failure β) (Value β)} (hleaf : ∀ a v, leaf a = .ok v → v.Over S) :
    (tree : Tree α) → Evaluation.Steady (tree.evaluate host leaf) (Value.Over S)
  | .leaf a => by
    rw [Tree.evaluate]
    cases ha : leaf a with
    | ok v => exact .pure (hleaf a v ha)
    | error e => exact .throw e
  | .call callee arguments => by
    rw [Tree.evaluate]
    refine .bind (Tree.evaluate_steady hpure hleaf callee) fun f hf => ?_
    refine .bind (Tree.evaluateList_steady hpure hleaf arguments) fun vs hvs => ?_
    exact f.apply_steady hpure hf hvs

/-- The evaluation of several trees over pure functions is steady. -/
theorem Tree.evaluateList_steady {host : Host β σ} (hpure : host.Pure S)
    {leaf : α → Except (Failure β) (Value β)} (hleaf : ∀ a v, leaf a = .ok v → v.Over S) :
    (trees : List (Tree α)) →
    Evaluation.Steady (Tree.evaluateList host leaf trees) fun vs => ∀ v ∈ vs, v.Over S
  | [] => by
    rw [Tree.evaluateList]
    exact .pure (by simp)
  | tree :: trees => by
    rw [Tree.evaluateList]
    refine .bind (Tree.evaluate_steady hpure hleaf tree) fun v hv => ?_
    refine .bind (Tree.evaluateList_steady hpure hleaf trees) fun vs hvs => .pure ?_
    simpa using ⟨hv, hvs⟩

end

end LineCalc
