import Scannerless.GrammarText.Phrase
import Scannerless.GrammarText.Rules

/-!
# Grammars from text

A grammar text is recognized with the grammar of its notation, evaluated into
statements, and these define the grammar. Errors of all stages are placed in
the text.

## Main definitions

- `GrammarText.read` — the statements of a text.
- `compileText` — the grammar of a text, with what is logged on the way.
-/

namespace Scannerless

open Text

namespace GrammarText

/-- Where and why a text is not one of the notation. -/
def fault (text : List Char) : RunError → Fault
  | .noLexemeMatch offset _ expected => ⟨.unexpectedText expected, offset⟩
  | .incompleteParse => ⟨.unexpectedEnd, byteLength text⟩
  | error => ⟨.notUnderstood error.message, 0⟩

def understand (r : Recognition) : Except RunError Phrase :=
  match r.failure? with
  | some error => .error error
  | none => (r.evaluate Phrase.actions).1

/-- The statements that a recognized text consists of. -/
def read (r : Recognition) : Except Fault (List Statement) :=
  match understand r with
  | .error error => .error (fault r.input.chars error)
  | .ok (.statements ss) => .ok ss
  | .ok _ => .error ⟨.notUnderstood "Grammar text has no statements", 0⟩

end GrammarText

/-- The outcome of compiling a grammar, with what was logged. -/
structure Compilation where
  records : List LogRecord
  result : Except CompileError Grammar

/-- Compiles the statements that were read from a text. -/
def compileStatements (text : List Char) (description : String) (ss : List Statement) :
    Compilation :=
  let counted := ⟨.debug, description ++ ": " ++ toString ss.length ++ " grammar statements"⟩
  match Grammar.ofStatements ss description with
  | .ok g => ⟨[counted, ⟨.debug, g.summary⟩], .ok g⟩
  | .error fault => ⟨[counted], .error (.inText text description fault)⟩

/-- Compiles a text with the grammar of its notation. -/
def compileWith (metagrammar : Grammar) (text : List Char) (description : String) :
    Compilation :=
  match recognizeChars metagrammar none text with
  | .error overrun =>
    ⟨[], .error (.inText text description (GrammarText.fault text overrun.error))⟩
  | .ok r =>
    match GrammarText.read r with
    | .error fault => ⟨[r.statistics], .error (.inText text description fault)⟩
    | .ok ss =>
      let c := compileStatements text description ss
      { c with records := r.statistics :: c.records }

/-- Compiles a text with the grammar of its notation, unless that is faulty itself. -/
def compileUsing (metagrammar : Except CompileError Grammar) (text : List Char)
    (description : String) : Compilation :=
  match metagrammar with
  | .error error => ⟨[], .error error⟩
  | .ok g => compileWith g text description

def compileText (text : String) (description : String) : Compilation :=
  compileUsing GrammarText.grammar text.toList description

def Definition.compilation (d : Definition) : Compilation :=
  match d.compile with
  | .ok g => ⟨[⟨.debug, g.summary⟩], .ok g⟩
  | .error error => ⟨[], .error error⟩

end Scannerless
