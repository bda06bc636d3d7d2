import Scannerless.Grammar.RuleTable

/-!
# Grammars

A grammar has two levels: structural rules over lexemes, and lexical rules
over characters that say what the lexemes are.

## Main definitions

- `Grammar` — the symbols, both tables of rules and the declarations.
- `Grammar.ruleText` — a rule by the names of its symbols.
- `Grammar.display` — the whole grammar, rule by rule.
-/

namespace Scannerless

/-- A grammar. `structural` has the rules over lexemes, `lexical` those over
    characters; `discards` may stand between lexemes; with `longestMatch` only
    the longest lexemes count. -/
structure Grammar where
  symbols : Array Symbol
  structural : RuleTable
  lexical : RuleTable
  start : SymbolId
  discards : List SymbolId
  longestMatch : Bool
  defaultAction : Option Action
  description : String

namespace Grammar

def name (g : Grammar) (s : SymbolId) : String :=
  match g.symbols[s]? with
  | some symbol => symbol.name
  | none => ""

/-- Whether a symbol is a token of the structural rules. -/
def isLexeme (g : Grammar) (s : SymbolId) : Bool :=
  g.symbols[s]?.any fun symbol => symbol.kind == .lexeme

/-- The characters a symbol stands for, if it stands for one character. -/
def charClass? (g : Grammar) (s : SymbolId) : Option CharClass :=
  match g.symbols[s]? with
  | some ⟨_, .char cls⟩ => some cls
  | _ => none

/-- The first symbol with a given name, characters apart. -/
def findSymbol? (g : Grammar) (name : String) : Option SymbolId :=
  g.symbols.findIdx? fun symbol =>
    symbol.name == name &&
      match symbol.kind with
      | .char _ => false
      | _ => true

/-- A rule as a left symbol, an arrow and the right side, by name. -/
def ruleText (g : Grammar) (r : Rule) : String :=
  g.name r.lhs ++ " -> " ++ " ".intercalate (r.rhs.map g.name)

def display (g : Grammar) : String :=
  let lines :=
    [":start ::= " ++ g.name g.start] ++ (g.structural.rules.toList.map g.ruleText)
      ++ (g.lexical.rules.toList.map g.ruleText)
      ++ (g.discards.map fun s => ":discard ~ " ++ g.name s)
  String.join (lines.map (· ++ "\n"))

end Grammar

end Scannerless
