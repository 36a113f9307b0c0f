import LineCalc.CommandLine
import LineCalc.Number.Native

/-!
# The command line
-/

open LineCalc.Native

/-- Evaluates the arguments or a line of the standard input, with the groups that the environment
asks for. -/
def main (arguments : List String) : IO UInt32 := do
  let input ← if arguments.isEmpty then (← IO.getStdin).getLine else pure ""
  let setting ← IO.getEnv "MEXPR_BUILTINS"
  let (text, status) :=
    LineCalc.CommandLine.respond setting arguments (LineCalc.CommandLine.lineFeeds input)
  IO.print text
  return UInt32.ofNat status
