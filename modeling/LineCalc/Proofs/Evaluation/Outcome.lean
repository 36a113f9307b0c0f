import LineCalc.Evaluation

/-!
# What an evaluation gives

The outcome of a computation is its value or its failure, without the world that it leaves. An
evaluation gives something if that is its outcome in every world (`Gives`), and it is steady if
there is such an outcome and it is a failure or a value of some kind (`Steady`). Both are kept by
every way in which evaluations are put together.

A function runs in a frame of its own, and the operands of a lifted operator run in copies of it.
So such a function is an evaluation of its operands one after the other, each with all of the
arguments (`Function.invoke_binary`).
-/

namespace LineCalc

variable {α β σ γ : Type}

/-! ## Outcomes -/

/-- A value or a failure, without the state it came with. -/
def outcome {ε : Type} : EStateM.Result ε σ α → Except ε α
  | .ok a _ => .ok a
  | .error e _ => .error e

namespace Evaluation

/-- An evaluation gives the same in every world. -/
def Gives (m : Evaluation β σ α) (r : Except (Failure β) α) : Prop :=
  ∀ w, outcome (m w) = r

/-- A computation runs before the one that is bound to its value. -/
theorem bind_apply (m : Evaluation β σ α) (k : α → Evaluation β σ γ) (w : σ) :
    (m >>= k) w = match m w with
      | .ok a w' => k a w'
      | .error e w' => .error e w' := by
  show EStateM.bind m k w = _
  unfold EStateM.bind
  cases m w <;> rfl

/-- Two computations one after the other have a value if the first one has, and then the second
one. -/
theorem bind_eq_ok {m : Evaluation β σ α} {k : α → Evaluation β σ γ} {w w' : σ} {c : γ} :
    (m >>= k) w = .ok c w' ↔ ∃ a middle, m w = .ok a middle ∧ k a middle = .ok c w' := by
  rw [bind_apply]
  cases m w with
  | ok a middle =>
    refine ⟨fun h => ⟨a, middle, rfl, h⟩, ?_⟩
    rintro ⟨_, _, ⟨⟩, h⟩
    exact h
  | error e middle => exact ⟨nofun, nofun⟩

/-- Two computations one after the other fail as the first one does, or as the second one after a
value of the first one. -/
theorem outcome_bind_eq_error {m : Evaluation β σ α} {k : α → Evaluation β σ γ} {w : σ}
    {e : Failure β} : outcome ((m >>= k) w) = .error e ↔
      outcome (m w) = .error e ∨
        ∃ a middle, m w = .ok a middle ∧ outcome (k a middle) = .error e := by
  rw [bind_apply]
  cases m w with
  | ok a middle =>
    refine ⟨fun h => .inr ⟨a, middle, rfl, h⟩, ?_⟩
    rintro (h | ⟨_, _, ⟨⟩, h⟩)
    · cases h
    · exact h
  | error e' middle =>
    constructor
    · intro h
      cases h
      exact .inl rfl
    · rintro (h | ⟨_, _, h, _⟩)
      · cases h
        rfl
      · cases h

/-- A value gives itself. -/
theorem Gives.pure (a : α) : Gives (pure a : Evaluation β σ α) (.ok a) := fun _ => rfl

/-- A failure gives itself. -/
theorem Gives.throw (e : Failure β) : Gives (throw e : Evaluation β σ α) (.error e) := fun _ => rfl

/-- One evaluation after the other. -/
theorem Gives.bind {m : Evaluation β σ α} {k : α → Evaluation β σ γ} {r : Except (Failure β) α}
    {r' : α → Except (Failure β) γ} (h : Gives m r) (hk : ∀ a, r = .ok a → Gives (k a) (r' a)) :
    Gives (m >>= k) (r >>= r') := by
  intro w
  have hr := h w
  rw [bind_apply]
  cases hm : m w with
  | ok a w' =>
    rw [hm] at hr
    rw [← hr]
    exact hk a hr.symm w'
  | error e w' =>
    rw [hm] at hr
    rw [← hr]
    rfl

/-- After a failure nothing is evaluated. -/
theorem Gives.bind_error {m : Evaluation β σ α} {e : Failure β} (h : Gives m (.error e))
    (k : α → Evaluation β σ γ) : Gives (m >>= k) (.error e) := by
  have hnone : ∀ a, (.error e : Except (Failure β) α) = .ok a → Gives (k a) (.error e) :=
    fun a ha => by cases ha
  exact h.bind hnone

/-- After a value the evaluation goes on with it. -/
theorem Gives.bind_ok {m : Evaluation β σ α} {a : α} (h : Gives m (.ok a))
    {k : α → Evaluation β σ γ} {r : Except (Failure β) γ} (hk : Gives (k a) r) :
    Gives (m >>= k) r := by
  have hone : ∀ b, (.ok a : Except (Failure β) α) = .ok b → Gives (k b) r :=
    fun b hb => by cases hb; exact hk
  exact h.bind hone

/-- An evaluation that gives the same in all worlds, and no value but those of a kind. -/
structure Steady (m : Evaluation β σ α) (P : α → Prop) : Prop where
  same : ∀ w w', outcome (m w) = outcome (m w')
  value : ∀ w a, outcome (m w) = .ok a → P a

/-- What a steady evaluation gives in one world, it gives. -/
theorem Steady.gives {m : Evaluation β σ α} {P : α → Prop} (h : Steady m P) (w : σ) :
    Gives m (outcome (m w)) := fun w' => h.same w' w

/-- A value is steady. -/
theorem Steady.pure {P : α → Prop} {a : α} (h : P a) : Steady (pure a : Evaluation β σ α) P :=
  ⟨fun _ _ => rfl, fun _ _ ha => by cases ha; exact h⟩

/-- A failure is steady. -/
theorem Steady.throw {P : α → Prop} (e : Failure β) : Steady (throw e : Evaluation β σ α) P :=
  ⟨fun _ _ => rfl, fun _ _ ha => by cases ha⟩

/-- One steady evaluation after the other. -/
theorem Steady.bind {m : Evaluation β σ α} {k : α → Evaluation β σ γ} {P : α → Prop}
    {Q : γ → Prop} (h : Steady m P) (hk : ∀ a, P a → Steady (k a) Q) : Steady (m >>= k) Q := by
  constructor
  · intro w w'
    have hsame := h.same w w'
    have hvalue := h.value w
    rw [bind_apply, bind_apply]
    generalize m w = x at hsame hvalue ⊢
    generalize m w' = y at hsame ⊢
    -- The two values are the same one, though the worlds after them may differ.
    cases x with
    | ok a v =>
      cases y with
      | ok b v' =>
        cases hsame
        exact (hk a (hvalue a rfl)).same v v'
      | error e v' => cases hsame
    | error e v =>
      cases y with
      | ok b v' => cases hsame
      | error e' v' =>
        cases hsame
        rfl
  · intro w c hc
    have hvalue := h.value w
    rw [bind_apply] at hc
    generalize m w = x at hvalue hc
    cases x with
    | ok a v => exact (hk a (hvalue a rfl)).value v c hc
    | error e v => cases hc

/-- A value that there may be, or the refusal of some arguments. -/
def ofOption (values : List (Value β)) : Option (Value β) → Evaluation β σ (Value β)
  | some v => return v
  | none => throw (.invalidArguments values)

/-- The outcome of a value that there may be. -/
def resultOf (values : List (Value β)) : Option (Value β) → Except (Failure β) (Value β)
  | some v => .ok v
  | none => .error (.invalidArguments values)

/-- A value that there may be gives itself or the refusal. -/
theorem Gives.ofOption (values : List (Value β)) (v? : Option (Value β)) :
    Gives (ofOption values v? : Evaluation β σ (Value β)) (resultOf values v?) := by
  cases v? with
  | none => exact .throw _
  | some v => exact .pure v

/-- A value that there may be is steady. -/
theorem Steady.ofOption {P : Value β → Prop} {values : List (Value β)} {v? : Option (Value β)}
    (h : ∀ v, v? = some v → P v) : Steady (ofOption values v? : Evaluation β σ (Value β)) P := by
  cases v? with
  | none => exact .throw _
  | some v => exact .pure (h v rfl)

/-- An evaluation whose failures are those of a call. -/
def wrapped (m : Evaluation β σ α) : Evaluation β σ α := fun w =>
  match m w with
  | .ok a w => .ok a w
  | .error failure w => .error failure.wrap w

/-- The outcome of a call that may fail. -/
theorem outcome_wrapped (m : Evaluation β σ α) (w : σ) :
    outcome (wrapped m w) = (outcome (m w)).mapError Failure.wrap := by
  unfold wrapped
  cases m w <;> rfl

/-- What a call gives. -/
theorem Gives.wrapped {m : Evaluation β σ α} {r : Except (Failure β) α} (h : Gives m r) :
    Gives (wrapped m) (r.mapError Failure.wrap) := by
  intro w
  rw [outcome_wrapped, h w]

/-- A call is as steady as what it does. -/
theorem Steady.wrapped {m : Evaluation β σ α} {P : α → Prop} (h : Steady m P) :
    Steady (wrapped m) P := by
  constructor
  · intro w w'
    rw [outcome_wrapped, outcome_wrapped, h.same w w']
  · intro w a ha
    rw [outcome_wrapped] at ha
    cases hm : outcome (m w) with
    | ok b =>
      rw [hm] at ha
      cases ha
      exact h.value w a hm
    | error e =>
      rw [hm] at ha
      cases ha

end Evaluation

/-! ## Calls as evaluations -/

/-- A call with arguments of its own changes only the world. -/
def Call.run (call : Call β σ α) (arguments : List (Value β)) : Evaluation β σ α := fun w =>
  match call ⟨arguments, w⟩ with
  | .ok a frame => .ok a frame.world
  | .error failure frame => .error failure frame.world

namespace Call

/-- After a call that has its own copy of the arguments these are the same. -/
theorem run_isolated_bind (call : Call β σ α) (k : α → Call β σ γ) (arguments : List (Value β)) :
    run (isolated call >>= k) arguments = run call arguments >>= fun a => run (k a) arguments := by
  funext w
  rw [Evaluation.bind_apply]
  have hbind : (isolated call >>= k) ⟨arguments, w⟩ = match isolated call ⟨arguments, w⟩ with
      | .ok a frame => k a frame
      | .error failure frame => .error failure frame := by
    show EStateM.bind (isolated call) k ⟨arguments, w⟩ = _
    unfold EStateM.bind
    cases isolated call ⟨arguments, w⟩ <;> rfl
  -- An isolated call gives its own frame up, so what follows starts with the old arguments.
  unfold run
  rw [hbind]
  unfold isolated
  cases call ⟨arguments, w⟩ <;> rfl

/-- A value that there may be does not depend on the arguments of the call. -/
theorem run_ofOption (values : List (Value β)) (v? : Option (Value β))
    (arguments : List (Value β)) :
    run (ofOption values v? : Call β σ (Value β)) arguments = Evaluation.ofOption values v? := by
  cases v? <;> rfl

end Call

variable [Numerics]

namespace Function

variable (host : Host β σ) (arguments : List (Value β))

/-- A function is called in a frame of its own. -/
theorem invoke_eq_run (f : Function β) :
    f.invoke host arguments = Call.run (f.call host) arguments := by
  funext w
  unfold invoke Call.run
  cases f.call host ⟨arguments, w⟩ <;> rfl

/-- An operator is applied to the arguments. -/
theorem invoke_operator (op : Operator) : (Function.operator op).invoke host arguments =
    Evaluation.ofOption arguments (op.eval? arguments) := by
  rw [invoke_eq_run, ← Call.run_ofOption arguments _ arguments]
  rfl

/-- A function of an angle is applied to the arguments. -/
theorem invoke_angle (f : AngleFunction) : (Function.angle f).invoke host arguments =
    Evaluation.ofOption arguments (f.eval? arguments) := by
  rw [invoke_eq_run, ← Call.run_ofOption arguments _ arguments]
  rfl

/-- A sign over a function is applied to what that gives. -/
theorem invoke_unary (op : Operator) (f : Function β) :
    (Function.unary op f).invoke host arguments =
      f.invoke host arguments >>= fun v => Evaluation.ofOption [v] (op.eval? [v]) := by
  rw [invoke_eq_run, invoke_eq_run, Function.call, Call.run_isolated_bind]
  simp only [Call.run_ofOption]

/-- An operator over two functions is applied to what they give, from left to right. -/
theorem invoke_binary (op : Operator) (f g : Function β) :
    (Function.binary op f g).invoke host arguments =
      f.invoke host arguments >>= fun left => g.invoke host arguments >>= fun right =>
        Evaluation.ofOption [left, right] (op.eval? [left, right]) := by
  rw [invoke_eq_run, invoke_eq_run, invoke_eq_run, Function.call, Call.run_isolated_bind]
  simp only [Call.run_isolated_bind, Call.run_ofOption]

/-- An operator over a function and a number is applied to what the function gives. -/
theorem invoke_binaryLeft (op : Operator) (f : Function β) (y : Binary64) :
    (Function.binaryLeft op f y).invoke host arguments =
      f.invoke host arguments >>= fun left =>
        Evaluation.ofOption [left, .number y] (op.eval? [left, .number y]) := by
  rw [invoke_eq_run, invoke_eq_run, Function.call, Call.run_isolated_bind]
  simp only [Call.run_ofOption]

/-- An operator over a number and a function is applied to what the function gives. -/
theorem invoke_binaryRight (op : Operator) (x : Binary64) (g : Function β) :
    (Function.binaryRight op x g).invoke host arguments =
      g.invoke host arguments >>= fun right =>
        Evaluation.ofOption [.number x, right] (op.eval? [.number x, right]) := by
  rw [invoke_eq_run, invoke_eq_run, Function.call, Call.run_isolated_bind]
  simp only [Call.run_ofOption]

end Function

/-- The application of a number fails. -/
theorem Value.apply_number (host : Host β σ) (x : Binary64) (arguments : List (Value β)) :
    (Value.number x).apply host arguments = throw (.callFailure (.invalidFunction x)) := rfl

/-- The application of a function is a call of it. -/
theorem Value.apply_function (host : Host β σ) (f : Function β) (arguments : List (Value β)) :
    (Value.function f).apply host arguments = Evaluation.wrapped (f.invoke host arguments) := by
  funext w
  unfold Value.apply Evaluation.wrapped
  dsimp only
  cases f.invoke host arguments w <;> rfl

/-- The application of an operator to arguments that it has a result for. -/
theorem Value.apply_operator (host : Host β σ) {op : Operator} {arguments : List (Value β)}
    {v : Value β} (hv : op.eval? arguments = some v) :
    (Value.function (.operator op)).apply host arguments = pure v := by
  rw [Value.apply_function, Function.invoke_operator, hv]
  rfl

end LineCalc
