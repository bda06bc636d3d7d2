import Scannerless.Evaluation
import Scannerless.GrammarText
import Scannerless.Value

/-!
# Parsers

A parser is a grammar with actions and options. It turns an input into a value
or tells why there is none, and reports what it was asked to trace.

## Main definitions

- `Parser.parse` — parses an input.
- `ParseReport` — the result with what was traced.
- `ParseReport.records`, `ParseReport.traces` — what is logged and what a
  tracer of one's own sees.
-/

namespace Scannerless

/-- What a parser traces, and how many items it may need. -/
structure ParseOptions where
  traceTerminals : Bool
  traceValues : Bool
  maxItems : Option Nat
  deriving DecidableEq, Repr

def ParseOptions.standard : ParseOptions :=
  ⟨false, false, none⟩

/-- A grammar with actions and options. -/
structure Parser (V : Type) where
  grammar : Grammar
  actions : Registry V
  options : ParseOptions

/-- The result for an input, the matches and values that were traced, and the
    run unless it was cut short. -/
structure ParseReport (V : Type) where
  result : Except RunError V
  terminals : List TerminalEvent
  recognition : Option Recognition
  values : List (ValueEvent V)

instance : Semantic Value where
  ofLexeme := .text
  undefined := .undefined
  ofList := .list

namespace Parser

variable {V : Type} [Semantic V]

/-- The report on an input that was run over to its end. -/
def evaluate (p : Parser V) (r : Recognition) : ParseReport V :=
  let terminals := if p.options.traceTerminals then r.terminals else []
  match r.failure? with
  | some error => ⟨.error error, terminals, some r, []⟩
  | none =>
    let (result, events) := r.evaluate p.actions
    ⟨result, terminals, some r, if p.options.traceValues then events.toList else []⟩

def parse (p : Parser V) (input : String) : ParseReport V :=
  match recognize p.grammar p.options.maxItems input with
  | .ok r => p.evaluate r
  | .error o =>
    let terminals := if p.options.traceTerminals then o.terminals p.grammar input else []
    ⟨.error o.error, terminals, none, []⟩

end Parser

/-- The place and the value of a rule, as it is logged. -/
def ValueEvent.display (e : ValueEvent Value) : String :=
  e.context.ruleText ++ " " ++ describeSpan e.context.start e.context.stop ++ " => "
    ++ e.value.debug

/-- The place and the value of a rule with the name of its left symbol. -/
def ValueEvent.named (e : ValueEvent Value) : String :=
  e.context.name ++ " | " ++ e.display

namespace ParseReport

/-- What is logged while an input is parsed: matches, then the size of the run
    and its chart, then values. -/
def records (p : ParseReport Value) : List LogRecord :=
  p.terminals.map (fun e => ⟨.trace, e.display⟩)
    ++ p.recognition.toList.flatMap (fun r => [r.statistics, r.dump])
    ++ p.values.map fun e => ⟨.trace, e.display⟩

/-- What a tracer sees while an input is parsed: matches and then values. -/
def traces (p : ParseReport Value) : List String :=
  p.terminals.map (·.display) ++ p.values.map (·.named)

end ParseReport

end Scannerless
