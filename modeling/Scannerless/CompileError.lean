import Scannerless.Text.Blank
import Scannerless.Text.Escape
import Scannerless.Text.Position

/-!
# Errors in grammars

A grammar is refused for a cause at a place. What is reported adds where the
grammar came from and the line the cause stands in.

## Main definitions

- `Cause` — why a grammar is refused.
- `Fault` — a cause with the byte offset it was found at.
- `CompileError` — what is reported.
-/

namespace Scannerless

open Text

inductive CompileErrorKind where
  | undefinedSymbol
  | noStartRule
  | malformedRule
  deriving DecidableEq, Repr

def CompileErrorKind.describe : CompileErrorKind → String
  | .undefinedSymbol => "undefined symbol"
  | .noStartRule => "no start rule"
  | .malformedRule => "malformed rule"

/-- What could have stood where no expected lexeme was found; nothing is
    expected once the whole text has been recognized. -/
def describeExpected (expected : List String) : String :=
  if expected.isEmpty then "expected end of input"
  else "expected one of: " ++ ", ".intercalate expected

/-- Why a grammar is refused. -/
inductive Cause where
  /-- The text of the grammar stops being one where these were expected. -/
  | unexpectedText (expected : List String)
  /-- The text of the grammar ends too early. -/
  | unexpectedEnd
  /-- The text of the grammar was recognized but not understood. -/
  | notUnderstood (reason : String)
  | noAlternatives (name : String)
  | prioritizedTwice (name : String)
  | duplicateStart
  | duplicateDefault
  | duplicateLexemeDefault
  | bothLevels (name : String)
  | discardedLexeme (name : String)
  | nameExpected (spelling : String)
  | badClass (spelling : String) (error : EscapeError)
  | badLiteral (spelling : String) (error : EscapeError)
  | emptyLiteral (spelling : String)
  | emptyName
  | badSymbol (spelling : String)
  | missingSymbol (name : String)
  | structuralDiscard (name : String)
  | structuralInLexical (name : String)
  | flagExpected (adverb value : String)
  | duplicateAdverb (adverb : String)
  | sequenceAdverb (adverb : String)
  | unknownAdverb (adverb : String)
  | lexicalAdverb (adverb : String)
  | unknownAssociativity (value : String)
  | integerExpected (value : String)
  | defaultAdverbs
  | lexemeDefaultAdverbs
  | duplicateRule (lhs : String) (rhs : List String)
  | misplacedQuantifier
  | quantifiedTier
  | startWithoutRules (name : String)
  | noStructuralRules
  | lexicalCycle (path : List String)
  | ruleCycle (path : List String)
  | emptyLexeme (name : String)
  deriving DecidableEq, Repr

namespace Cause

def kind : Cause → CompileErrorKind
  | .missingSymbol _ => .undefinedSymbol
  | .startWithoutRules _ | .noStructuralRules => .noStartRule
  | _ => .malformedRule

def inQuotes (text : String) : String :=
  "'" ++ text ++ "'"

def message : Cause → String
  | .unexpectedText expected => "Syntax error, " ++ describeExpected expected
  | .unexpectedEnd => "Unexpected end of grammar text"
  | .notUnderstood reason => reason
  | .noAlternatives name => "Rule for " ++ inQuotes name ++ " has an empty alternative list"
  | .prioritizedTwice name =>
    "Prioritized symbol " ++ inQuotes name ++ " must be defined by a single rule"
  | .duplicateStart => "Duplicate :start declaration"
  | .duplicateDefault => "Duplicate :default declaration"
  | .duplicateLexemeDefault => "Duplicate lexeme default declaration"
  | .bothLevels name => "Symbol " ++ inQuotes name ++ " has both structural and lexical rules"
  | .discardedLexeme name => "Symbol " ++ inQuotes name ++ " is both a lexeme and discarded"
  | .nameExpected spelling => "Expected a symbol name, found " ++ spelling
  | .badClass spelling error => "Bad char class " ++ spelling ++ ": " ++ error.describe
  | .badLiteral spelling error => "Bad literal " ++ spelling ++ ": " ++ error.describe
  | .emptyLiteral spelling => "Empty literal " ++ spelling
  | .emptyName => "Empty bracketed name"
  | .badSymbol spelling => "Bad symbol " ++ spelling
  | .missingSymbol name => "Missing Symbol: " ++ name
  | .structuralDiscard name => "Structural symbol " ++ inQuotes name ++ " cannot be discarded"
  | .structuralInLexical name =>
    "Structural symbol " ++ inQuotes name ++ " used in lexical rule"
  | .flagExpected adverb value =>
    "Adverb " ++ inQuotes adverb ++ " expects 0 or 1, found " ++ value
  | .duplicateAdverb adverb => "Duplicate adverb " ++ inQuotes adverb
  | .sequenceAdverb adverb =>
    "Adverb " ++ inQuotes adverb ++ " only applies to sequence rules"
  | .unknownAdverb adverb => "Unknown adverb " ++ inQuotes adverb
  | .lexicalAdverb adverb =>
    "Adverb " ++ inQuotes adverb ++ " is not allowed in lexical rules"
  | .unknownAssociativity value => "Unknown assoc " ++ inQuotes value
  | .integerExpected value => "Rank must be an integer, found " ++ value
  | .defaultAdverbs => ":default takes a single action adverb"
  | .lexemeDefaultAdverbs => "lexeme default takes a single latm adverb"
  | .duplicateRule lhs rhs => "Duplicate Rule: " ++ lhs ++ " -> " ++ " ".intercalate rhs
  | .misplacedQuantifier =>
    "Structural quantifiers (* +) are only allowed in a single-symbol sequence rule"
  | .quantifiedTier => "Quantifiers are not allowed in prioritized rules"
  | .startWithoutRules name => "Start symbol " ++ inQuotes name ++ " has no structural rules"
  | .noStructuralRules => "Grammar has no structural rules"
  | .lexicalCycle path => "Lexical rules reference themselves: " ++ " -> ".intercalate path
  | .ruleCycle path => "Rule cycle: " ++ " -> ".intercalate path
  | .emptyLexeme name => "Lexeme " ++ inQuotes name ++ " can match empty input"

end Cause

/-- A cause with the byte offset of the statement or the part of one that it
    was found at. -/
structure Fault where
  cause : Cause
  offset : Nat
  deriving DecidableEq, Repr

/-- What is reported of a grammar that is refused: the kind and the wording of
    the cause, where the grammar came from, and its place if the grammar was a
    text. -/
structure CompileError where
  kind : CompileErrorKind
  message : String
  description : String
  location : Option Location
  lineText : Option String
  deriving DecidableEq, Repr

namespace CompileError

/-- The report of a fault in a grammar that was not written as a text. -/
def ofFault (description : String) (fault : Fault) : CompileError :=
  ⟨fault.cause.kind, fault.cause.message, description, none, none⟩

/-- The report of a fault in a grammar text. -/
def inText (text : List Char) (description : String) (fault : Fault) : CompileError :=
  let location := locate text fault.offset
  { ofFault description fault with
    location := some location
    lineText := lineText? text location.line }

def place (e : CompileError) : String :=
  match e.location, e.lineText with
  | some l, some text => " at " ++ l.describe ++ ": " ++ trim text
  | some l, none => " at " ++ l.describe
  | none, some text => " in: " ++ trim text
  | none, none => ""

def display (e : CompileError) : String :=
  e.description ++ ": " ++ e.kind.describe ++ ": " ++ e.message ++ e.place

end CompileError

end Scannerless
