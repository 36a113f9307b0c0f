import LineCalc.Parser

/-!
# Several parsers on one source

Parsers that are stepped by hand: copies of one another, each at its own place. A step moves the
parser that takes it and no other.
-/

namespace LineCalc.Parser

/-- What a parser can be told to do. -/
inductive Step where
  | peek
  | advance
  | expect (kind : TokenKind)
  | clone
  | commit (source : Nat)
  | read (production : Production)

/-- What a step gives. -/
inductive Reply where
  | token (token : Token)
  | clone (index : Nat)
  | moved
  | tree (tree : SyntaxTree)
  | failed (error : ParseError)

variable {σ : Type} [TokenSource σ]

/-- The reply of a computation, and the place where it ends. -/
def reply {α : Type} (p : Parser σ α) (f : α → Reply) (s : σ) : Reply × σ :=
  match p s with
  | .ok a s => (f a, s)
  | .error error s => (.failed error, s)

/-- The step that a parser takes among the others. A clone is put at the end of them, and a commit
moves the parser to the place of another one. -/
def Step.run (step : Step) (on : Nat) (s : σ) (parsers : List σ) : Reply × List σ :=
  let moved : Reply × σ → Reply × List σ := fun (reply, s) => (reply, parsers.set on s)
  match step with
  | .peek => moved (reply Parser.peek .token s)
  | .advance => moved (reply Parser.advance .token s)
  | .expect kind => moved (reply (Parser.expect kind) .token s)
  | .clone => (.clone parsers.length, parsers ++ [s])
  | .commit source => (.moved, parsers.set on (parsers.getD source s))
  | .read production => moved (reply (Parser.read production) .tree s)

/-- The replies to steps, each with the parser that takes it, and with the token that stands
before that parser afterwards. A step of a parser that does not exist ends the run. -/
def runSteps : List σ → List (Nat × Step) → List (Reply × Token)
  | _, [] => []
  | parsers, (on, step) :: steps =>
    match parsers[on]? with
    | none => []
    | some s =>
      let (reply, parsers) := step.run on s parsers
      (reply, (TokenSource.peek (parsers.getD on s)).1) :: runSteps parsers steps

end LineCalc.Parser
