import LineCalc.Proofs.Evaluation.Outcome

/-!
# How an evaluation fails

A function that is built in fails in one way only: it refuses its arguments, or one that it hands
its own arguments to does (`Function.invoke_yields`). A call wraps that failure, once, however
deeply the function is lifted (`Value.apply_yields`). So an evaluation fails in one of two ways: at
a leaf, which is then the first one without a value, or in a call of this kind
(`Tree.evaluate_yields`). If it does not fail then all of its leaves have values.
-/

namespace LineCalc

variable {α β σ γ : Type}

/-! ## Values and failures of some kinds -/

namespace Evaluation

/-- Every value that an evaluation can have is of one kind, and every failure of another. -/
structure Yields (m : Evaluation β σ α) (P : α → Prop) (E : Failure β → Prop) : Prop where
  value : ∀ w a, outcome (m w) = .ok a → P a
  failure : ∀ w e, outcome (m w) = .error e → E e

/-- What is of some kind is of a wider one. -/
theorem Yields.mono {m : Evaluation β σ α} {P Q : α → Prop} {E F : Failure β → Prop}
    (h : Yields m P E) (hP : ∀ a, P a → Q a) (hE : ∀ e, E e → F e) : Yields m Q F :=
  ⟨fun w a ha => hP a (h.value w a ha), fun w e he => hE e (h.failure w e he)⟩

/-- A value yields itself. -/
theorem Yields.pure {P : α → Prop} {E : Failure β → Prop} {a : α} (h : P a) :
    Yields (pure a : Evaluation β σ α) P E :=
  ⟨fun _ _ ha => by cases ha; exact h, fun _ _ he => by cases he⟩

/-- A failure yields itself. -/
theorem Yields.throw {P : α → Prop} {E : Failure β → Prop} {e : Failure β} (h : E e) :
    Yields (throw e : Evaluation β σ α) P E :=
  ⟨fun _ _ ha => (by cases ha), fun _ _ he => by cases he; exact h⟩

/-- One evaluation after the other, where the second one may rely on what the first one yields. -/
theorem Yields.bind {m : Evaluation β σ α} {k : α → Evaluation β σ γ} {P : α → Prop}
    {Q : γ → Prop} {E : Failure β → Prop} (h : Yields m P E) (hk : ∀ a, P a → Yields (k a) Q E) :
    Yields (m >>= k) Q E := by
  constructor
  · intro w c hc
    have hvalue := h.value w
    rw [bind_apply] at hc
    generalize m w = x at hvalue hc
    cases x with
    | ok a w' => exact (hk a (hvalue a rfl)).value w' c hc
    | error e w' => cases hc
  · intro w e he
    have hvalue := h.value w
    have hfailure := h.failure w
    rw [bind_apply] at he
    generalize m w = x at hvalue hfailure he
    cases x with
    | ok a w' => exact (hk a (hvalue a rfl)).failure w' e he
    | error e' w' =>
      cases he
      exact hfailure e rfl

/-- A call yields what it does, with the failures wrapped. -/
theorem Yields.wrapped {m : Evaluation β σ α} {P : α → Prop} {E F : Failure β → Prop}
    (h : Yields m P E) (hE : ∀ e, E e → F e.wrap) : Yields (wrapped m) P F := by
  constructor
  · intro w a ha
    rw [outcome_wrapped] at ha
    cases hm : outcome (m w) with
    | ok b =>
      rw [hm] at ha
      cases ha
      exact h.value w a hm
    | error e =>
      rw [hm] at ha
      cases ha
  · intro w e he
    rw [outcome_wrapped] at he
    cases hm : outcome (m w) with
    | ok b =>
      rw [hm] at he
      cases he
    | error e' =>
      rw [hm] at he
      cases he
      exact hE e' (h.failure w e' hm)

end Evaluation

open Evaluation (Yields)

/-! ## Calls -/

/-- A function refuses its arguments. -/
inductive Refusal : Failure β → Prop
  | arguments (values : List (Value β)) : Refusal (.invalidArguments values)

/-- A call fails: a number is called, or a function refuses its arguments. -/
inductive CallRefusal : Failure β → Prop
  | notFunction (x : Binary64) : CallRefusal (.callFailure (.invalidFunction x))
  | arguments (values : List (Value β)) : CallRefusal (.callFailure (.invalidArguments values))

/-- A result that there may be is refused or there. -/
theorem Evaluation.ofOption_yields (values : List (Value β)) (v? : Option (Value β)) :
    Yields (ofOption values v? : Evaluation β σ (Value β)) (fun _ => True) Refusal := by
  cases v? with
  | none => exact .throw (.arguments values)
  | some v => exact .pure trivial

section

variable [Numerics] (host : Host β σ)
  (hhost : ∀ b arguments, Yields (Call.run (host b) arguments) (fun _ => True) Refusal)
include hhost

/-- A function fails only with a refusal if those of the host do: the operands of an operator are
called without wrapping what they fail with. -/
theorem Function.invoke_yields (f : Function β) (arguments : List (Value β)) :
    Yields (f.invoke host arguments) (fun _ => True) Refusal := by
  induction f with
  | operator op =>
    rw [invoke_operator]
    exact Evaluation.ofOption_yields _ _
  | angle f =>
    rw [invoke_angle]
    exact Evaluation.ofOption_yields _ _
  | host b =>
    rw [invoke_eq_run]
    exact hhost b arguments
  | unary op f ih =>
    rw [invoke_unary]
    exact ih.bind fun _ _ => Evaluation.ofOption_yields _ _
  | binary op f g ihf ihg =>
    rw [invoke_binary]
    exact ihf.bind fun _ _ => ihg.bind fun _ _ => Evaluation.ofOption_yields _ _
  | binaryLeft op f y ih =>
    rw [invoke_binaryLeft]
    exact ih.bind fun _ _ => Evaluation.ofOption_yields _ _
  | binaryRight op x g ih =>
    rw [invoke_binaryRight]
    exact ih.bind fun _ _ => Evaluation.ofOption_yields _ _

/-- A value that is applied fails with a refusal that is wrapped once. -/
theorem Value.apply_yields (callee : Value β) (arguments : List (Value β)) :
    Yields (callee.apply host arguments) (fun _ => True) CallRefusal := by
  cases callee with
  | number x =>
    rw [Value.apply_number]
    exact .throw (.notFunction x)
  | function f =>
    rw [Value.apply_function]
    refine (f.invoke_yields host hhost arguments).wrapped ?_
    rintro _ ⟨values⟩
    exact .arguments values

end

/-! ## Trees -/

/-- All leaves have values. -/
def AllValued (leaf : α → Except (Failure β) (Value β)) (leaves : List α) : Prop :=
  ∀ a ∈ leaves, ∃ v, leaf a = .ok v

/-- Some leaf fails, and those before it have values. -/
def FirstFails (leaf : α → Except (Failure β) (Value β)) (leaves : List α) (e : Failure β) : Prop :=
  ∃ before a after, leaves = before ++ a :: after ∧ AllValued leaf before ∧ leaf a = .error e

section

variable {leaf : α → Except (Failure β) (Value β)} {as bs : List α} {e : Failure β}

/-- All leaves are those of the start and those of the end. -/
theorem AllValued.append (h : AllValued leaf as) (h' : AllValued leaf bs) :
    AllValued leaf (as ++ bs) :=
  fun a ha => (List.mem_append.mp ha).elim (h a) (h' a)

/-- What fails first at the start fails first. -/
theorem FirstFails.append (h : FirstFails leaf as e) (bs : List α) :
    FirstFails leaf (as ++ bs) e := by
  obtain ⟨before, a, after, rfl, hbefore, ha⟩ := h
  exact ⟨before, a, after ++ bs, by simp, hbefore, ha⟩

/-- What fails first behind leaves with values fails first. -/
theorem FirstFails.of_allValued (h : FirstFails leaf bs e) (has : AllValued leaf as) :
    FirstFails leaf (as ++ bs) e := by
  obtain ⟨before, a, after, rfl, hbefore, ha⟩ := h
  exact ⟨as ++ before, a, after, by simp, has.append hbefore, ha⟩

end

section

variable [Numerics]

mutual

/-- If a tree has a value then all of its leaves have. If it fails then its first leaf without a
value does, or one of its calls. -/
theorem Tree.evaluate_yields {host : Host β σ}
    (hhost : ∀ b arguments, Yields (Call.run (host b) arguments) (fun _ => True) Refusal)
    (leaf : α → Except (Failure β) (Value β)) : ∀ t : Tree α, Yields (t.evaluate host leaf)
      (fun _ => AllValued leaf t.leaves)
      (fun e => FirstFails leaf t.leaves e ∨ CallRefusal e)
  | .leaf a => by
    unfold Tree.evaluate Tree.leaves
    cases ha : leaf a with
    | ok v =>
      refine .pure fun b hb => ?_
      obtain rfl := List.mem_singleton.mp hb
      exact ⟨v, ha⟩
    | error e => exact .throw (.inl ⟨[], a, [], rfl, fun _ hb => (by cases hb), ha⟩)
  | .call callee arguments => by
    unfold Tree.evaluate Tree.leaves
    have hcallee := Tree.evaluate_yields hhost leaf callee
    have harguments := Tree.evaluateList_yields hhost leaf arguments
    refine (hcallee.mono (fun _ h => h) fun e he => he.imp_left (·.append _)).bind fun v hv => ?_
    refine (harguments.mono (fun _ h => h) fun e he => he.imp_left (·.of_allValued hv)).bind
      fun vs hvs => ?_
    exact (v.apply_yields host hhost vs).mono (fun _ _ => hv.append hvs) fun _ => .inr

/-- Several trees are evaluated from left to right. -/
theorem Tree.evaluateList_yields {host : Host β σ}
    (hhost : ∀ b arguments, Yields (Call.run (host b) arguments) (fun _ => True) Refusal)
    (leaf : α → Except (Failure β) (Value β)) : ∀ ts : List (Tree α),
      Yields (Tree.evaluateList host leaf ts)
        (fun _ => AllValued leaf (Tree.leavesList ts))
        (fun e => FirstFails leaf (Tree.leavesList ts) e ∨ CallRefusal e)
  | [] => by
    unfold Tree.evaluateList Tree.leavesList
    exact .pure fun _ hb => by cases hb
  | t :: ts => by
    unfold Tree.evaluateList Tree.leavesList
    have hfirst := Tree.evaluate_yields hhost leaf t
    have hrest := Tree.evaluateList_yields hhost leaf ts
    refine (hfirst.mono (fun _ h => h) fun e he => he.imp_left (·.append _)).bind fun v hv => ?_
    refine (hrest.mono (fun _ h => h) fun e he => he.imp_left (·.of_allValued hv)).bind
      fun vs hvs => ?_
    exact .pure (hv.append hvs)

end

end

/-- An atom has no value if it is a name that a table does not bind, and only then. -/
theorem Atom.value_eq_error_iff {table : Table β} {a : Atom} {e : Failure β} :
    a.value table = .error e ↔
      ∃ name, a = .identifier name ∧ table.get? name = none ∧ e = .undefinedIdentifier name := by
  cases a with
  | number x => simp [Atom.value]
  | identifier name =>
    unfold Atom.value Table.lookup
    cases hname : table.get? name with
    | none => simp [hname, eq_comm]
    | some v => simp [hname]

end LineCalc
