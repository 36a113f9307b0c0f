import LineCalc.Document.Index

/-!
# Diagnostics of a document

Lines that are no expressions are errors. Names that are not known may be meant to be bound later,
so that they are only pointed out.
-/

namespace LineCalc.Document

/-- How serious a diagnostic is. -/
inductive Severity where
  | error
  | information
deriving DecidableEq

/-- The number of a severity in the protocol of language servers. -/
def Severity.code : Severity → Nat
  | .error => 1
  | .information => 3

/-- A remark on some columns of a line. -/
structure Diagnostic where
  /-- The line, counted from zero. -/
  line : Nat
  /-- The first column. -/
  start : Nat
  /-- The column after the last. -/
  stop : Nat
  /-- How serious it is. -/
  severity : Severity
  /-- The text. -/
  message : String
deriving DecidableEq

namespace Diagnostic

/-- Who makes the remarks. -/
def origin : String :=
  "mexpr-ls"

/-- The remark on a line that is no expression. -/
def ofProblem (problem : Problem) : Diagnostic :=
  ⟨problem.line, problem.column, problem.column + problem.length, .error, problem.message⟩

/-- The remark on a name that is not known. -/
def ofUnbound (use : Use) : Diagnostic :=
  ⟨use.line, use.column, use.column + use.name.length, .information,
    "\"" ++ use.name ++ "\" is not bound by any builtin"⟩

end Diagnostic

/-- The remarks on a document: first the errors, then the names. -/
def Index.diagnostics (index : Index) : List Diagnostic :=
  index.problems.map Diagnostic.ofProblem ++ index.unbound.map Diagnostic.ofUnbound

end LineCalc.Document
