import Scannerless.CompileError

/-!
# Errors of a run

What keeps a parser from producing a value.
-/

namespace Scannerless

open Text

/-- Why there is no value. -/
inductive RunError where
  /-- The grammar was refused. -/
  | compile (error : CompileError)
  /-- No expected lexeme matches at an offset. -/
  | noLexemeMatch (offset : Nat) (location : Location) (expected : List String)
  /-- The input ends before it is complete. -/
  | incompleteParse
  /-- A rule names an action that the parser does not bind. -/
  | unboundAction (name : String)
  /-- The chart would need more items than allowed, the first of them in the
      set at an offset. -/
  | exhausted (limit offset : Nat)
  deriving DecidableEq, Repr

namespace RunError

def isExhausted : RunError → Bool
  | .exhausted _ _ => true
  | _ => false

def message : RunError → String
  | .compile error => error.display
  | .noLexemeMatch offset location expected =>
    "No lexeme matches at " ++ location.describe ++ " (offset " ++ toString offset ++ "); "
      ++ describeExpected expected
  | .incompleteParse => "No parse was found after reading the entire input"
  | .unboundAction name => "Action '" ++ name ++ "' is not bound"
  | .exhausted limit offset =>
    "Recognizer exceeded its limit of " ++ toString limit ++ " Earley items at offset "
      ++ toString offset

end RunError

end Scannerless
