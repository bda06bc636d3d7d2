import Scannerless.Digraph
import Scannerless.Draft.Lexical
import Scannerless.Draft.Structural
import Scannerless.Grammar

/-!
# Definitions of grammars

A grammar is defined by statements. The order of statements of different kinds
does not matter: discards are read first, then structural and then lexical
statements.

A grammar is refused if a lexeme is also discarded or can match nothing, if
lexical rules use themselves, or if a symbol can be derived from itself alone.

## Main definitions

- `Grammar.ofStatements` — the grammar of a list of statements, or the fault
  that keeps them from being one.
- `Definition` — statements with a description; `Definition.compile`.
-/

namespace Scannerless

namespace Drafting

/-- Reads all statements, those of one kind after those of another. -/
def statements (o : Outline) (ss : List Statement) : Drafting Unit := do
  ss.forM fun
    | .discard element offset => discard o element offset
    | _ => pure ()
  ss.forM fun
    | .structural lhs tiers offset => structural o lhs tiers offset
    | _ => pure ()
  ss.forM fun
    | .lexical lhs alternatives offset => lexical o lhs alternatives offset
    | _ => pure ()

end Drafting

namespace Draft

/-- Refuses a symbol that is both a token and discarded. -/
def requireDisjoint (d : Draft) : Except Fault Unit :=
  match d.discards.find? d.lexemes.contains with
  | some id => .error ⟨.discardedLexeme (d.name id), d.offset id⟩
  | none => .ok ()

/-- The start symbol: the declared one, or the first with structural rules. -/
def startSymbol (o : Outline) : Except Fault SymbolId :=
  match o.start with
  | some (raw, offset) => do
    let name ← Element.decodeNameAt raw offset
    match o.structuralId? name with
    | some id => .ok id
    | none => .error ⟨.startWithoutRules name, offset⟩
  | none => if o.structural.isEmpty then .error ⟨.noStructuralRules, 0⟩ else .ok 0

/-- Refuses a graph on the symbols that has a cycle, placed at its first
    symbol. -/
def requireAcyclic (d : Draft) (edges : Nat → List SymbolId) (cause : List String → Cause) :
    Except Fault Unit :=
  match Digraph.findCycle edges d.symbols.size with
  | some cycle => .error ⟨cause (cycle.map d.name), d.offset (cycle.headD 0)⟩
  | none => .ok ()

/-- The lexical symbols used in the rules of a lexical symbol. -/
def referencesOf (d : Draft) (s : SymbolId) : List SymbolId :=
  (d.references.filter (·.1 == s)).map (·.2)

/-- The symbols that a right side consists of if its other symbols are
    empty, `before` being the symbols that precede it. -/
def aloneIn (t : RuleTable) (before : List SymbolId) : List SymbolId → List SymbolId
  | [] => []
  | s :: after =>
    if t.hasRules s && before.all t.isNullable && after.all t.isNullable then
      s :: aloneIn t (before ++ [s]) after
    else aloneIn t (before ++ [s]) after

/-- The symbols that a symbol may consist of alone. -/
def aloneFrom (t : RuleTable) (s : SymbolId) : List SymbolId :=
  (t.rulesFor s).flatMap fun id => aloneIn t [] (t.rhs id)

/-- Refuses a token or a discarded lexeme that can match nothing. -/
def requireNonempty (d : Draft) (lexical : RuleTable) : Except Fault Unit :=
  match (d.lexemes ++ d.discards).find? lexical.isNullable with
  | some id => .error ⟨.emptyLexeme (d.name id), d.offset id⟩
  | none => .ok ()

/-- The grammar of a draft whose statements are all read. -/
def finish (d : Draft) (o : Outline) (description : String) : Except Fault Grammar := do
  d.requireDisjoint
  let start ← startSymbol o
  let structural := RuleTable.ofRules d.structural d.symbols.size
  let lexical := RuleTable.ofRules d.lexical d.symbols.size
  d.requireAcyclic d.referencesOf .lexicalCycle
  d.requireNonempty lexical
  d.requireAcyclic (aloneFrom structural) .ruleCycle
  return {
    symbols := d.symbols
    structural := structural
    lexical := lexical
    start := start
    discards := d.discards
    longestMatch := o.longestMatch.getD false
    defaultAction := o.defaultAction
    description := description }

end Draft

/-- The grammar of a list of statements, or the fault that keeps them from
    being one. -/
def Grammar.ofStatements (ss : List Statement) (description : String) :
    Except Fault Grammar := do
  let o ← Outline.ofStatements ss
  let (_, d) ← (Drafting.statements o ss).run (Draft.ofOutline o)
  d.finish o description

def Grammar.summary (g : Grammar) : String :=
  g.description ++ ": compiled " ++ toString g.symbols.size ++ " symbols, "
    ++ toString g.structural.rules.size ++ " structural and "
    ++ toString g.lexical.rules.size ++ " lexical rules"

/-- Statements of a grammar with a description of where they came from. -/
structure Definition where
  statements : List Statement
  description : String

namespace Definition

def empty : Definition :=
  ⟨[], "grammar"⟩

def add (d : Definition) (s : Statement) : Definition :=
  { d with statements := d.statements ++ [s] }

def describe (d : Definition) (description : String) : Definition :=
  { d with description := description }

def compile (d : Definition) : Except CompileError Grammar :=
  (Grammar.ofStatements d.statements d.description).mapError (CompileError.ofFault d.description)

end Definition

end Scannerless
