import Scannerless.Calculator

/-!
# The calculator as a program

Words are evaluated once. Without words each line of standard input is
answered as it comes. Traces go to the error output.
-/

namespace Scannerless.Calculator

open Text

/-- Answers an expression, with its traces on the error output. -/
def printAnswer (p : Parser Value) (expression : String) : IO Unit := do
  let report := p.parse expression
  for line in report.traces do
    IO.eprintln line
  IO.println (resultLine report)

/-- Answers the lines of standard input and gives the exit code. -/
partial def printAnswers (p : Parser Value) (input : IO.FS.Stream) : IO UInt32 := do
  let line ← input.getLine
  if line.isEmpty then return 0
  match takeBack? (dropLineEnd line.toList) with
  | none => return 101
  | some expression =>
    if !(trimChars expression).isEmpty then printAnswer p (String.ofList expression)
    printAnswers p input

/-- Answers a call and gives its exit code. -/
def run (arguments : List String) : IO UInt32 := do
  match Invocation.read arguments with
  | none =>
    IO.eprintln "usage: [--max-items N] [--trace-terminals] [--trace-values] [EXPRESSION]..."
    return 2
  | some c =>
    match parser c.options with
    | .error error =>
      IO.eprintln error.display
      return 1
    | .ok p =>
      if c.words.isEmpty then printAnswers p (← IO.getStdin)
      else
        printAnswer p (" ".intercalate c.words)
        return 0

end Scannerless.Calculator

def main (arguments : List String) : IO UInt32 :=
  Scannerless.Calculator.run arguments
