import Scannerless.Decimal.Dyadic
import Scannerless.Parser
import Scannerless.Recipe
import Scannerless.Text.Lines
import Scannerless.Text.TypedLine

/-!
# A calculator

A calculator for expressions with numbers, parentheses, functions and the
operators `^ - * / % +`, driven by a grammar text.

It is called with flags and the words of an expression. Without words it
answers each line of its input that is not blank.

## Main definitions

- `Calculator.grammarText`, `Calculator.actions` — what expressions mean.
- `Invocation.read` — the words and flags of a call.
- `Calculator.respond` — the answer to a call.
-/

namespace Scannerless

open Text

namespace Calculator

/-- The grammar of expressions. -/
def grammarText : String := "
    lexeme default = latm => 1
    :discard ~ ws

    expr ::= num action => num
           | '(' expr ')' assoc => group action => parens
           | name '(' expr ')' assoc => group action => call
          || expr '^' expr assoc => right action => pow
          || '-' expr action => neg
          || expr '*' expr action => mul
           | expr '/' expr action => div
           | expr '%' expr action => rem
          || expr '+' expr action => add
           | expr '-' expr action => sub

    num ~ digits | digits '.' digits
    digits ~ [0-9]+
    name ~ [a-z_]+
    ws ~ [\\s]+
"

/-- What errors in the grammar's text are said to be in. -/
def description : String :=
  "slifcalc"

def grammar : Except CompileError Grammar :=
  (compileText grammarText description).result

/-- The value of a function at a number; an unknown function has none. -/
def call (arguments : List Value) : Value :=
  let x := Recipe.float arguments 2
  match (Recipe.arg arguments 0).asText? with
  | some "sqrt" => .float x.sqrt
  | some "sin" => .float x.sin
  | some "cos" => .float x.cos
  | some "exp" => .float x.exp
  | some "ln" => .float x.log
  | some "abs" => .float x.abs
  | _ => .undefined

def recipes : List (String × Recipe) :=
  [("num", .number), ("parens", .argument 1), ("pow", .power), ("neg", .negate),
    ("mul", .multiply), ("div", .divide), ("add", .add), ("sub", .subtract)]

/-- The actions of the grammar of expressions. -/
def actions : Registry Value :=
  let ready : Registry Value :=
    recipes.foldl (fun r (name, recipe) => r.bindRecipe name recipe) Registry.empty
  let withCall := ready.bind "call" fun _ arguments => call arguments
  withCall.bind "rem" fun _ arguments => Recipe.binary Decimal.remainder arguments

/-- The line that tells the result for an expression. -/
def resultLine (report : ParseReport Value) : String :=
  match report.result with
  | .ok value => value.display
  | .error error => "Parse err: " ++ error.message

def answer (p : Parser Value) (expression : String) : String :=
  resultLine (p.parse expression)

end Calculator

/-- A call: its flags and the words of an expression. -/
structure Invocation where
  options : ParseOptions
  words : List String
  deriving DecidableEq, Repr

namespace Invocation

def empty : Invocation :=
  ⟨.standard, []⟩

def addWords (c : Invocation) (words : List String) : Invocation :=
  { c with words := c.words ++ words }

/-- A call with a limit on items, which must be a number of 64 bits and may be
    given once. -/
def limit? (c : Invocation) (value : List Char) : Option Invocation :=
  match c.options.maxItems, Decimal.readNatural? 64 value with
  | none, some n => some { c with options := { c.options with maxItems := some n } }
  | _, _ => none

/-- A call that traces terminals, which may be asked for once. -/
def traceTerminals? (c : Invocation) : Option Invocation :=
  if c.options.traceTerminals then none
  else some { c with options := { c.options with traceTerminals := true } }

/-- A call that traces values, which may be asked for once. -/
def traceValues? (c : Invocation) : Option Invocation :=
  if c.options.traceValues then none
  else some { c with options := { c.options with traceValues := true } }

def limitFlag : List Char :=
  "--max-items=".toList

/-- Reads the arguments of a call on top of those read before. Two dashes end
    the flags; a single dash is a word. -/
def readFrom (c : Invocation) : List String → Option Invocation
  | [] => some c
  | [a] => readLast c a
  | a :: b :: rest =>
    if a == "--" then some (c.addWords (b :: rest))
    else if a == "--max-items" then (c.limit? b.toList).bind (readFrom · rest)
    else (readLast c a).bind (readFrom · (b :: rest))
where
  /-- Reads an argument that takes nothing from those that follow. -/
  readLast (c : Invocation) (a : String) : Option Invocation :=
    if a == "--" then some c
    else if a == "--trace-terminals" then c.traceTerminals?
    else if a == "--trace-values" then c.traceValues?
    else if limitFlag.isPrefixOf a.toList then c.limit? (a.toList.drop limitFlag.length)
    else if a.toList.head? == some '-' && a != "-" then none
    else some (c.addWords [a])

def read (arguments : List String) : Option Invocation :=
  readFrom empty arguments

end Invocation

/-- What a call prints and the code it exits with. -/
structure Response where
  exitCode : Nat
  lines : List String
  deriving DecidableEq, Repr

namespace Calculator

def parser (options : ParseOptions) : Except CompileError (Parser Value) :=
  grammar.map fun g => ⟨g, actions, options⟩

/-- The answers to lines, blank ones passed over. A line that cannot be read
    ends the answers with exit code 101. -/
def answerLines (p : Parser Value) : List (List Char) → Response
  | [] => ⟨0, []⟩
  | line :: rest =>
    match takeBack? (dropLineEnd line) with
    | none => ⟨101, []⟩
    | some expression =>
      let later := answerLines p rest
      if (trimChars expression).isEmpty then later
      else { later with lines := answer p (String.ofList expression) :: later.lines }

def respondTo (c : Invocation) (input : String) : Response :=
  match parser c.options with
  | .error _ => ⟨1, []⟩
  | .ok p =>
    if c.words.isEmpty then answerLines p (linesWithEnds input.toList)
    else ⟨0, [answer p (" ".intercalate c.words)]⟩

/-- The answer to a call with the given arguments and input; bad arguments
    give no lines and exit code 2. -/
def respond (arguments : List String) (input : String) : Response :=
  match Invocation.read arguments with
  | none => ⟨2, []⟩
  | some c => respondTo c input

end Calculator

end Scannerless
