import LineCalc.Script

/-!
# A table that is worked on

Commands bind names, look them up, evaluate texts, and may bind what comes of them. Numbers are the
same if their values are equal; a function is the same only as itself, so that each one gets an
identity when it is bound.
-/

namespace LineCalc.Script

/-! ## Identity -/

/-- A function with an identity: the one that it has, or else the given one. -/
def identify (identity : Nat) : Value Script → Value Script
  | .number x => .number x
  | .function (.host (.identified old f)) => .function (.host (.identified old f))
  | .function f => .function (.host (.identified identity f))

/-- Whether two values are the same: numbers by their values, functions by identity. -/
def same : Value Script → Value Script → Bool
  | .number x, .number y => x.sameValue y
  | .function (.host (.identified a _)), .function (.host (.identified b _)) => a == b
  | _, _ => false

/-! ## Commands -/

/-- What can be done with the table. -/
inductive Command where
  | define (name : Datum) (candidate : Candidate Script)
  | update (bindings : List (Datum × Candidate Script))
  | lookup (name : String)
  | contains (name : Datum)
  | names
  | size
  | table
  | same (left right : String)
  | register (groups : List String)
  | evaluate (source : String) (target : Option Datum)

/-- What comes of a command. -/
inductive Reply where
  | done
  | value (v : Value Script)
  | contained (answer : Bool)
  | names (names : List String)
  | size (count : Nat)
  | table (table : Table Script)
  | same (answer : Bool)
  | registered (groups : List String)

/-- A stage, and the number from which on identities are free. -/
structure Console where
  /-- The table and the trace. -/
  stage : Stage
  /-- No function has this identity or a greater one. -/
  fresh : Nat

/-- Gives an identity to each function of the table that has none. -/
def Console.identifyAll (console : Console) : Console :=
  let table := console.stage.table
  let entries := table.entries.mapIdx fun i entry => (entry.1, identify (console.fresh + i) entry.2)
  ⟨{ console.stage with table := ⟨entries⟩ }, console.fresh + table.size⟩

variable [Numerics]

/-- What a command gives and does. -/
def Command.run : Command → Evaluation Script Stage Reply
  | .define name candidate => do
    bindNames [(name, candidate)]
    return .done
  | .update bindings => do
    bindNames bindings
    return .done
  | .lookup name => do
    match (← get).table.lookup name with
    | .ok v => return .value v
    | .error failure => throw failure
  | .contains (.text name) => return .contained ((← get).table.contains name)
  | .contains _ => return .contained false
  | .names => return .names (← get).table.names
  | .size => return .size (← get).table.size
  | .table => return .table (← get).table
  | .same left right => do
    let table := (← get).table
    match table.lookup left, table.lookup right with
    | .ok x, .ok y => return .same (Script.same x y)
    | .error failure, _ => throw failure
    | .ok _, .error failure => throw failure
  | .register groups => do
    let (registered, after) := Builtin.register (← get).table groups
    modify fun stage => { stage with table := after }
    return .registered registered
  | .evaluate source target => do
    let v ← evaluateText host (← get).table source
    match target with
    | some name => bindNames [(name, .value v)]
    | none => pure ()
    return .value v

/-- What a command gives, and the console after it. -/
def Console.handle (console : Console) (command : Command) :
    Except (Failure Script) Reply × Console :=
  match command.run console.identifyAll.stage with
  | .ok reply stage => (.ok reply, { console.identifyAll with stage })
  | .error failure stage => (.error failure, { console.identifyAll with stage })

end LineCalc.Script
