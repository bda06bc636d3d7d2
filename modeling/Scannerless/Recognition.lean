import Scannerless.Chart.Addition
import Scannerless.Lexer
import Scannerless.RunError

/-!
# Recognition

A recognizer goes through the places of an input that tokens reach. At each of
them it closes the set of items, skips what may be discarded, and moves the
items over the tokens that begin there. An input is recognized if the start
symbol is complete at a place after which everything is discarded.

## Main definitions

- `recognize` — the run over an input, with an optional limit on items.
- `Recognition.failure?` — why an input is not recognized.
- `Recognition.statistics`, `Recognition.dump` — what is logged of a run.
-/

namespace Scannerless

open Text

/-- A run while it lasts: the chart, the lexer, the complete items of the
    start symbol that cover the input, and the last place that was reached. -/
structure Run (g : Grammar) where
  chart : Chart g.structural
  lexer : Lexer
  roots : List ItemRef
  furthest : Nat

/-- A run that was cut short: the limit on items, the set where it was
    exceeded, and the lexer. -/
structure Overrun where
  limit : Nat
  offset : Nat
  lexer : Lexer

/-- A run that came to its end. -/
structure Recognition where
  grammar : Grammar
  input : Indexed
  run : Run grammar

def Overrun.ofExcess (lexer : Lexer) (e : Excess) : Overrun :=
  ⟨e.limit, e.place, lexer⟩

/-- Moves the items of an offset over tokens that begin at `start`. -/
def Run.scanAll {g : Grammar} (limit : Option Nat) (offset start : Nat) (r : Run g)
    (found : List (SymbolId × Nat)) : Except Overrun (Run g) :=
  let ⟨chart, lexer, roots, furthest⟩ := r
  match found.foldlM (fun c (s, stop) => c.scanWithin limit offset s start stop) chart with
  | .ok chart => .ok ⟨chart, lexer, roots, furthest⟩
  | .error e => .error (.ofExcess lexer e)

/-- Visits a place that was reached. -/
def Run.visit {g : Grammar} (limit : Option Nat) (input : Indexed) (offset : Nat)
    (r : Run g) : Except Overrun (Run g) :=
  let ⟨chart, lexer, roots, _⟩ := r
  match chart.closeWithin limit offset with
  | .error e => .error (.ofExcess lexer e)
  | .ok chart =>
    let (start, lexer) := lexer.skip g input offset
    if input.size ≤ start then
      .ok ⟨chart, lexer, roots ++ chart.completed offset g.start 0, offset⟩
    else
      let (found, lexer) := lexer.lexemes g input start (chart.expected offset)
      Run.scanAll limit offset start ⟨chart, lexer, roots, offset⟩ found

/-- Visits a place if it was reached. -/
def Run.pass {g : Grammar} (limit : Option Nat) (input : Indexed) (r : Run g)
    (offset : Nat) : Except Overrun (Run g) :=
  if (r.chart.setAt offset).isEmpty then .ok r else r.visit limit input offset

/-- A run before its first place, the rules of the start symbol being predicted. -/
def Run.first (g : Grammar) (limit : Option Nat) (input : Indexed) : Except Overrun (Run g) :=
  match (Chart.ofSize (input.size + 1)).predictWithin limit 0 g.start with
  | .ok chart => .ok ⟨chart, Lexer.initial, [], 0⟩
  | .error e => .error (.ofExcess Lexer.initial e)

/-- Runs over an indexed input from its first place to its last. -/
def recognizeIndexed (g : Grammar) (limit : Option Nat) (input : Indexed) :
    Except Overrun Recognition := do
  let first ← Run.first g limit input
  let last ← (List.range (input.size + 1)).foldlM (Run.pass limit input) first
  return ⟨g, input, last⟩

def recognizeChars (g : Grammar) (limit : Option Nat) (input : List Char) :
    Except Overrun Recognition :=
  recognizeIndexed g limit (.ofList input)

/-- Runs over an input. -/
def recognize (g : Grammar) (limit : Option Nat) (input : String) :
    Except Overrun Recognition :=
  recognizeChars g limit input.toList

def Overrun.error (o : Overrun) : RunError :=
  .exhausted o.limit o.offset

namespace Recognition

/-- Where the first token after an offset begins, for the offsets that tokens
    reach. -/
def skip (r : Recognition) (offset : Nat) : Nat :=
  r.run.lexer.skips.getD offset offset

/-- Why an input is not recognized: it ends too early, or no expected token
    begins after the last place that was reached. -/
def failure? (r : Recognition) : Option RunError :=
  if r.run.roots.isEmpty then
    let offset := r.skip r.run.furthest
    if r.input.size ≤ offset then some .incompleteParse
    else
      let expected := r.run.chart.expected r.run.furthest
      some (.noLexemeMatch offset (locate r.input.chars offset) (expected.map r.grammar.name))
  else none

/-- The size of a run, as it is logged. -/
def statistics (r : Recognition) : LogRecord :=
  ⟨.debug,
    r.grammar.description ++ ": recognized " ++ toString r.input.size
      ++ " bytes with " ++ toString r.run.chart.numItems ++ " items, "
      ++ toString r.run.roots.length ++ " parses"⟩

/-- An item with its span, its rule with a dot, and the number of its
    sources. -/
def dumpEntry (g : Grammar) (offset : Nat) (e : Entry) : String :=
  let rhs := (g.structural.rhs e.item.rule).map g.name
  let lhs := ((g.structural.lhs? e.item.rule).map g.name).getD ""
  "(" ++ toString e.item.origin ++ " - " ++ toString offset ++ ") " ++ lhs ++ " -> "
    ++ " ".intercalate (rhs.take e.item.dot) ++ " · " ++ " ".intercalate (rhs.drop e.item.dot)
    ++ " #bp: " ++ toString e.sources.size

/-- The items of a set, a line each, below its offset. -/
def dumpSet (g : Grammar) (offset : Nat) (set : StateSet g.structural) : List String :=
  if set.isEmpty then []
  else
    ("=== StateSet " ++ toString offset ++ " ===")
      :: set.entries.map (dumpEntry g offset)

/-- The chart, a line for each set and each item. -/
def dumpLines (r : Recognition) : List String :=
  (r.run.chart.sets.toList.zipIdx).flatMap fun (set, offset) => dumpSet r.grammar offset set

def dump (r : Recognition) : LogRecord :=
  ⟨.trace, String.join (r.dumpLines.map (· ++ "\n"))⟩

/-- The matches that the lexer reported, with their names and texts. -/
def terminals (r : Recognition) : List TerminalEvent :=
  r.run.lexer.events.toList.map (·.terminal r.grammar r.input)

end Recognition

/-- The matches that the lexer reported before a run was cut short. -/
def Overrun.terminals (o : Overrun) (g : Grammar) (input : String) : List TerminalEvent :=
  let text := Indexed.ofList input.toList
  o.lexer.events.toList.map (·.terminal g text)

end Scannerless
