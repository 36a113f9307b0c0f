import LineCalc.CommandLine

/-!
# Scripted hosts

Functions of a host that are given as data: simple ones that return, count, remove or apply their
arguments, some that fail, one that keeps a trace, and expressions with parameters. They see the
table of the host and may call one another down to a limit.
-/

namespace LineCalc

/-- A function of a scripted host. -/
inductive Script where
  /-- Always the same value. -/
  | const (value : Value Script)
  /-- The argument at an index. -/
  | argument (index : Nat)
  /-- How many arguments there are. -/
  | count
  /-- The last argument, which is removed from the list. -/
  | pop
  /-- The first argument applied to the others. -/
  | apply
  /-- Always the same failure. -/
  | fail (failure : Failure Script)
  /-- Another value, called after a note in the trace. -/
  | trace (name : String) (inner : Value Script)
  /-- An expression over the table of the host and its parameters. -/
  | expression (parameters : List Datum) (source : String)
  /-- A function with an identity of its own. -/
  | identified (identity : Nat) (f : Function Script)

/-- What scripted functions can see and change. -/
structure Stage where
  /-- The table of the host. -/
  table : Table Script
  /-- The notes so far: a name, and the arguments of a call. -/
  trace : List (String × List (Value Script))

variable [Numerics]

namespace Script

/-- A number is called by a function of the host itself. -/
def notCallable : Raised :=
  .ofMessage .exception "TypeError" "'Number' object is not callable"

/-- Calls a value with the arguments of the frame. A number cannot be called. -/
def callValue (host : Host Script Stage) : Value Script → Call Script Stage (Value Script)
  | .function f => f.call host
  | .number _ => throw (.raised notCallable)

/-- Adds bindings to a table. -/
def bindAll (bindings : List (Datum × Candidate Script)) (table : Table Script) :
    Evaluation Script Stage (Table Script) :=
  match table.update bindings with
  | (some failure, _) => throw (.ofBinding failure)
  | (none, table) => return table

/-- The value of a text over a table. -/
def evaluateText (host : Host Script Stage) (table : Table Script) (source : String) :
    Evaluation Script Stage (Value Script) :=
  match parse source with
  | .error error => throw (.parse error)
  | .ok expr => expr.evaluate host table

/-- What a scripted function does, given what those do that it calls. -/
def step (host : Host Script Stage) : Host Script Stage
  | .const value => return value
  | .argument index => do
    match (← Call.arguments)[index]? with
    | some v => return v
    | none => Call.reject
  | .count => return .number (Decimal.toBinary64 false ⟨(← Call.arguments).length, 0⟩)
  | .pop => do
    let arguments ← Call.arguments
    match arguments.getLast? with
    | some v =>
      Call.setArguments arguments.dropLast
      return v
    | none => Call.reject
  | .apply => do
    match ← Call.arguments with
    | callee :: arguments => Call.onWorld (callee.apply host arguments)
    | [] => Call.reject
  | .fail failure => throw failure
  | .trace name inner => do
    let arguments ← Call.arguments
    Call.onWorld (modify fun stage => { stage with trace := stage.trace ++ [(name, arguments)] })
    callValue host inner
  | .expression parameters source => do
    let arguments ← Call.arguments
    if arguments.length = parameters.length then
      let bindings := parameters.zip (arguments.map Candidate.value)
      Call.onWorld do evaluateText host (← bindAll bindings (← get).table) source
    else Call.reject
  | .identified _ f => f.call host

/-- What scripted functions do whose calls are nested to at most the given depth. -/
def hostTo : Nat → Host Script Stage
  | 0 => fun _ => throw (.raised .recursionLimit)
  | depth + 1 => step (hostTo depth)

/-- What scripted functions do. -/
def host : Host Script Stage :=
  hostTo 1000

/-! ## Use of a stage -/

/-- Calls a value with a list of arguments of its own. -/
def invokeValue (v : Value Script) (arguments : List (Value Script)) :
    Evaluation Script Stage (Value Script) := fun stage =>
  match callValue host v ⟨arguments, stage⟩ with
  | .ok v frame => .ok v frame.world
  | .error failure frame => .error failure frame.world

/-- Calls a value, then what comes of it, and so on, with one list of arguments after the other. -/
def invokeAll (v : Value Script) :
    List (List (Value Script)) → Evaluation Script Stage (Value Script)
  | [] => return v
  | arguments :: rest => do invokeAll (← invokeValue v arguments) rest

/-- Binds names in the table of the stage, up to the first binding that is refused. -/
def bindNames (bindings : List (Datum × Candidate Script)) : Evaluation Script Stage Unit := do
  let (failure?, table) := (← get).table.update bindings
  modify fun stage => { stage with table }
  match failure? with
  | some failure => throw (.ofBinding failure)
  | none => return ()

/-- The value of an expression over the table of the stage, in which names are bound first. -/
def evaluateBound (bindings : List (Datum × Candidate Script)) (expr : Expr) :
    Evaluation Script Stage (Value Script) := do
  bindNames bindings
  expr.evaluate host (← get).table

end Script

end LineCalc
