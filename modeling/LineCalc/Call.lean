import LineCalc.Failure

/-!
# Calls

A call hands a list of arguments to a function, which may change that list and the world of the
host before it returns a value or fails. A lifted operator hands a copy of its own list to each of
its operands, from left to right, so that none sees what another does to it.
-/

namespace LineCalc

/-- What a running function can read and change. -/
structure Frame (β σ : Type) where
  /-- The list of arguments of this call. -/
  arguments : List (Value β)
  /-- The world of the host. -/
  world : σ

/-- A computation inside a call. -/
abbrev Call (β σ : Type) := EStateM (Failure β) (Frame β σ)

/-- A computation that changes only the world of the host. -/
abbrev Evaluation (β σ : Type) := EStateM (Failure β) σ

/-- What the functions of a host do. -/
abbrev Host (β σ : Type) := β → Call β σ (Value β)

namespace Call

variable {β σ α : Type}

/-- The arguments as they are now. -/
def arguments : Call β σ (List (Value β)) :=
  return (← get).arguments

/-- Another list of arguments. -/
def setArguments (arguments : List (Value β)) : Call β σ Unit :=
  modify fun frame => { frame with arguments }

/-- Refuses the arguments as they are now. -/
def reject : Call β σ α := do
  throw (.invalidArguments (← arguments))

/-- A computation that works on the world alone. -/
def onWorld (run : Evaluation β σ α) : Call β σ α := fun frame =>
  match run frame.world with
  | .ok a world => .ok a { frame with world }
  | .error failure world => .error failure { frame with world }

/-- A computation with its own copy of the arguments. -/
def isolated (call : Call β σ α) : Call β σ α := fun frame =>
  match call frame with
  | .ok a after => .ok a { after with arguments := frame.arguments }
  | .error failure after => .error failure { after with arguments := frame.arguments }

/-- A result for some values, which are refused if there is none. -/
def ofOption (values : List (Value β)) : Option (Value β) → Call β σ (Value β)
  | some v => return v
  | none => throw (.invalidArguments values)

end Call

variable {β σ : Type} [Numerics]

/-- Calls a function with the arguments of the frame. -/
def Function.call (host : Host β σ) : Function β → Call β σ (Value β)
  | .operator op => do
    let arguments ← Call.arguments
    Call.ofOption arguments (op.eval? arguments)
  | .angle f => do
    let arguments ← Call.arguments
    Call.ofOption arguments (f.eval? arguments)
  | .host b => host b
  | .unary op f => do
    let values := [← Call.isolated (f.call host)]
    Call.ofOption values (op.eval? values)
  | .binary op f g => do
    let left ← Call.isolated (f.call host)
    let values := [left, ← Call.isolated (g.call host)]
    Call.ofOption values (op.eval? values)
  | .binaryLeft op f y => do
    let values := [← Call.isolated (f.call host), .number y]
    Call.ofOption values (op.eval? values)
  | .binaryRight op x g => do
    let values := [.number x, ← Call.isolated (g.call host)]
    Call.ofOption values (op.eval? values)

/-- Calls a function with a list of arguments of its own. Its failures are passed on as they
are. -/
def Function.invoke (host : Host β σ) (f : Function β) (arguments : List (Value β)) :
    Evaluation β σ (Value β) := fun world =>
  match f.call host ⟨arguments, world⟩ with
  | .ok v frame => .ok v frame.world
  | .error failure frame => .error failure frame.world

/-- The failure of a call whose function failed. A failure of the function is put under one of the
call, whose text shows it: if that raises something, then this is the failure. What the function
raised is no matter of the call if it is no exception, or a recursion limit. -/
def Failure.wrap : Failure β → Failure β
  | .raised e =>
    match e.category, e.display with
    | .exception, .ok _ => .callFailure (.raised e)
    | .exception, .error instead => .raised instead
    | .recursion, _ | .stop, _ => .raised e
  | failure => .callFailure failure

/-- Applies a value to arguments. A number is no function, and what fails inside a call is the
failure of that call. -/
def Value.apply (host : Host β σ) (callee : Value β) (arguments : List (Value β)) :
    Evaluation β σ (Value β) := fun world =>
  match callee with
  | .number x => .error (.callFailure (.invalidFunction x)) world
  | .function f =>
    match f.invoke host arguments world with
    | .ok v world => .ok v world
    | .error failure world => .error failure.wrap world

end LineCalc
