import Scannerless.Text.Lines
import Scannerless.Text.Quoted

/-!
# Traces

What can be observed while a parser works: the fate of the matches of lexemes,
and the messages it logs.
-/

namespace Scannerless

open Text

/-- What became of a match. -/
inductive TerminalKind where
  /-- It is a token of the structural rules. -/
  | accepted
  /-- It is shorter than the longest match. -/
  | rejected
  /-- It is skipped between tokens. -/
  | discarded
  deriving DecidableEq, Repr

def TerminalKind.describe : TerminalKind → String
  | .accepted => "Accepted"
  | .rejected => "Rejected"
  | .discarded => "Discarded"

/-- A match of a lexeme, with its span in bytes and its text. -/
structure TerminalEvent where
  kind : TerminalKind
  lexeme : String
  start : Nat
  stop : Nat
  text : String
  deriving DecidableEq, Repr

/-- A span as it is shown in traces. -/
def describeSpan (start stop : Nat) : String :=
  "@" ++ toString start ++ "-" ++ toString stop

def TerminalEvent.display (e : TerminalEvent) : String :=
  e.kind.describe ++ " " ++ e.lexeme ++ " " ++ describeSpan e.start e.stop ++ ": "
    ++ quoteText e.text

/-- How detailed a message is. -/
inductive LogLevel where
  | debug
  | trace
  deriving DecidableEq, Repr

def LogLevel.describe : LogLevel → String
  | .debug => "DEBUG"
  | .trace => "TRACE"

/-- A message at a level. -/
structure LogRecord where
  level : LogLevel
  message : String
  deriving DecidableEq, Repr

def LogRecord.display (r : LogRecord) : String :=
  r.level.describe ++ " " ++ r.message

/-- A message line by line, its level in front of the first. -/
def LogRecord.lines (r : LogRecord) : List String :=
  (Text.lines r.display.toList).map String.ofList

end Scannerless
