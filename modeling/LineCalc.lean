import LineCalc.Builtin
import LineCalc.Call
import LineCalc.CommandLine
import LineCalc.Datum
import LineCalc.Document.Diagnostic
import LineCalc.Document.Index
import LineCalc.Document.Session
import LineCalc.Document.Word
import LineCalc.Evaluation
import LineCalc.Failure
import LineCalc.Main
import LineCalc.Number.Binary64
import LineCalc.Number.Decimal
import LineCalc.Number.Layout
import LineCalc.Number.Native
import LineCalc.Number.Shortest
import LineCalc.Operator
import LineCalc.OrderedMap
import LineCalc.Parser
import LineCalc.Parser.Lookahead
import LineCalc.Parser.Pool
import LineCalc.Raised
import LineCalc.Script
import LineCalc.Script.Console
import LineCalc.Settings
import LineCalc.Table
import LineCalc.Text.Basic
import LineCalc.Text.Letter
import LineCalc.Text.Numeric
import LineCalc.Text.Printable
import LineCalc.Text.Quoted
import LineCalc.Token
import LineCalc.Token.Cursor
import LineCalc.Token.Literal
import LineCalc.Tree
import LineCalc.Value
import LineCalc.Proofs.Parsing.Simulation
import LineCalc.Proofs.Parsing.Words
import LineCalc.Proofs.Parsing.Equations
import LineCalc.Proofs.Parsing.Reading
import LineCalc.Proofs.Lexing.Stream
import LineCalc.Proofs.Parsing.Exactness
import LineCalc.Proofs.Parsing.Places
import LineCalc.Proofs.Parsing.Soundness
import LineCalc.Proofs.Parsing.Acceptance
import LineCalc.Proofs.Evaluation.Outcome
import LineCalc.Proofs.Evaluation.Purity
import LineCalc.Proofs.Evaluation.Lifting
import LineCalc.Proofs.Lexing.Boundary
import LineCalc.Proofs.Parsing.Spelling
import LineCalc.Proofs.Parsing.Conventional
import LineCalc.Proofs.Parsing.Extension
import LineCalc.Proofs.Lexing.Lexemes
import LineCalc.Proofs.Evaluation.Failures
import LineCalc.Proofs.Registration
import LineCalc.Proofs.Bindings
import LineCalc.Proofs.CommandLine.Answers
import LineCalc.Proofs.Parsing.Leaves
import LineCalc.Proofs.Document.Agreement
import LineCalc.Proofs.Document.History
import LineCalc.Proofs.Evaluation.Numeric
import LineCalc.Proofs.Lexing.Spacing
import LineCalc.Proofs.Parsing.Renaming
import LineCalc.Proofs.CommandLine.Respacing
import LineCalc.Proofs.Parsing.Brackets
import LineCalc.Proofs.Lexing.Partition
import LineCalc.Proofs.Lexing.Characters
import LineCalc.Proofs.Lexing.UnknownRuns
import LineCalc.Proofs.Evaluation.Record
import LineCalc.Proofs.Evaluation.StackMachine
import LineCalc.Proofs.Evaluation.Operands
import LineCalc.Proofs.Evaluation.Layers
import LineCalc.Proofs.Parsing.Failing
import LineCalc.Proofs.Lexing.Numerals
import LineCalc.Proofs.Number.Rounding
import LineCalc.Proofs.Number.ReadingBack
import LineCalc.Proofs.Document.Hovering
import LineCalc.Proofs.Parsing.Kinds
import LineCalc.Proofs.Document.Scanning
import LineCalc.Proofs.Document.Origins
import LineCalc.Proofs.Document.Lines
import LineCalc.Proofs.Document.Names
import LineCalc.Proofs.Settings
import LineCalc.Proofs.Parsing.Positions
import LineCalc.Proofs.Parsing.Sharing
