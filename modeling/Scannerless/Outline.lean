import Scannerless.Adverbs
import Scannerless.Element
import Scannerless.Statement

/-!
# Outlines

The names that the statements of a grammar define, level by level and in the
order of their first definitions, with the declarations about the whole
grammar. The outline is known before any right side is read.

## Main definitions

- `Outline.ofStatements` — the outline of a list of statements.
- `Outline.structuralId?`, `Outline.lexicalId?` — the symbol of a name.
-/

namespace Scannerless

/-- The defined names with the offset of their first definition, those of them
    defined in tiers, and the declarations about the whole grammar. -/
structure Outline where
  structural : List (String × Nat)
  lexical : List (String × Nat)
  prioritized : List String
  start : Option (String × Nat)
  defaultAction : Option Action
  longestMatch : Option Bool

namespace Outline

def empty : Outline :=
  ⟨[], [], [], none, none, none⟩

def isStructural (o : Outline) (name : String) : Bool :=
  o.structural.any (·.1 == name)

def isLexical (o : Outline) (name : String) : Bool :=
  o.lexical.any (·.1 == name)

/-- The symbol of a name with structural rules. They are the first symbols. -/
def structuralId? (o : Outline) (name : String) : Option SymbolId :=
  o.structural.findIdx? (·.1 == name)

/-- The symbol of a name with lexical rules. They come after those with
    structural rules. -/
def lexicalId? (o : Outline) (name : String) : Option SymbolId :=
  (o.lexical.findIdx? (·.1 == name)).map (o.structural.length + ·)

/-- Takes note of a structural definition. A name defined in tiers has no
    other definition. -/
def addStructural (o : Outline) (name : String) (tiers : List (List Alternative))
    (offset : Nat) : Except Fault Outline :=
  if tiers.isEmpty || tiers.any List.isEmpty then .error ⟨.noAlternatives name, offset⟩
  else if (tiers.length > 1 || o.prioritized.contains name) && o.isStructural name then
    .error ⟨.prioritizedTwice name, offset⟩
  else
    .ok { o with
      structural :=
        if o.isStructural name then o.structural else o.structural ++ [(name, offset)]
      prioritized := if tiers.length > 1 then name :: o.prioritized else o.prioritized }

def addLexical (o : Outline) (name : String) (alternatives : List Alternative)
    (offset : Nat) : Except Fault Outline :=
  if alternatives.isEmpty then .error ⟨.noAlternatives name, offset⟩
  else
    .ok { o with
      lexical := if o.isLexical name then o.lexical else o.lexical ++ [(name, offset)] }

def add (o : Outline) : Statement → Except Fault Outline
  | .structural lhs tiers offset => do
    let name ← Element.decodeNameAt lhs offset
    o.addStructural name tiers offset
  | .lexical lhs alternatives offset => do
    let name ← Element.decodeNameAt lhs offset
    o.addLexical name alternatives offset
  | .start symbol offset =>
    if o.start.isSome then .error ⟨.duplicateStart, offset⟩
    else .ok { o with start := some (symbol, offset) }
  | .default adverbs offset =>
    if o.defaultAction.isSome then .error ⟨.duplicateDefault, offset⟩
    else (readDefaultAction adverbs offset).map fun a => { o with defaultAction := some a }
  | .lexemeDefault adverbs offset =>
    if o.longestMatch.isSome then .error ⟨.duplicateLexemeDefault, offset⟩
    else (readLongestMatch adverbs offset).map fun on => { o with longestMatch := some on }
  | .discard _ _ => .ok o

/-- Refuses a name with rules of both levels. -/
def requireOneLevel (o : Outline) : Except Fault Unit :=
  match o.lexical.find? fun entry => o.isStructural entry.1 with
  | some (name, offset) => .error ⟨.bothLevels name, offset⟩
  | none => .ok ()

/-- The outline of a list of statements. -/
def ofStatements (statements : List Statement) : Except Fault Outline := do
  let o ← statements.foldlM add empty
  o.requireOneLevel
  return o

end Outline

end Scannerless
