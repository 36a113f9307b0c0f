import LineCalc.Proofs.Evaluation.Outcome

/-!
# Evaluations on record

The world of a host can keep a record of what is done in it: which names are looked up, and which
functions are invoked with which arguments (`Record`). An evaluation that keeps one is the same as
an evaluation without it if only the record makes a difference (`Evaluation.Forgets`), and this is
kept when evaluations follow one another.
-/

namespace LineCalc

variable {α β σ γ : Type}

/-- Something that an evaluation does: it looks up a name, or it invokes a function with
arguments. -/
inductive Event (β : Type) where
  | lookup (name : String)
  | invoke (f : Function β) (arguments : List (Value β))

/-- The world of a host, with what has been done so far. -/
structure Record (β σ : Type) where
  /-- The world of the host. -/
  world : σ
  /-- What has been done, in order. -/
  events : List (Event β)

namespace Evaluation

/-- An evaluation that is put on record as some events. -/
def watched (events : List (Event β)) (m : Evaluation β σ α) : Evaluation β (Record β σ) α :=
  fun record =>
    match m record.world with
    | .ok a world => .ok a ⟨world, record.events ++ events⟩
    | .error failure world => .error failure ⟨world, record.events ++ events⟩

/-- A result without the record. -/
def forget : EStateM.Result (Failure β) (Record β σ) α → EStateM.Result (Failure β) σ α
  | .ok a record => .ok a record.world
  | .error failure record => .error failure record.world

/-- An evaluation on record is another one if the record is forgotten. -/
def Forgets (m : Evaluation β (Record β σ) α) (n : Evaluation β σ α) : Prop :=
  ∀ record, forget (m record) = n record.world

/-- A value with a record is the value. -/
theorem Forgets.pure (a : α) :
    Forgets (pure a : Evaluation β (Record β σ) α) (pure a : Evaluation β σ α) :=
  fun _ => rfl

/-- A value that there may be is the same with a record and without. -/
theorem Forgets.ofOption (values : List (Value β)) (v? : Option (Value β)) :
    Forgets (ofOption values v? : Evaluation β (Record β σ) (Value β))
      (ofOption values v? : Evaluation β σ (Value β)) := by
  intro record
  cases v? <;> rfl

/-- Evaluations one after the other are so without their records. -/
theorem Forgets.bind {m : Evaluation β (Record β σ) α} {n : Evaluation β σ α}
    {k : α → Evaluation β (Record β σ) γ} {l : α → Evaluation β σ γ} (h : Forgets m n)
    (hk : ∀ a, Forgets (k a) (l a)) : Forgets (m >>= k) (n >>= l) := by
  intro record
  have hm := h record
  rw [bind_apply, bind_apply, ← hm]
  cases m record with
  | ok a after => exact hk a after
  | error failure after => rfl

/-- What is put on record is itself without the record. -/
theorem Forgets.watched (events : List (Event β)) (m : Evaluation β σ α) :
    Forgets (watched events m) m := by
  intro record
  unfold Evaluation.watched
  cases m record.world <;> rfl

end Evaluation

end LineCalc
