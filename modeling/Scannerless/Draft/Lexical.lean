import Scannerless.Draft.Basic

/-!
# Lexical rules

How lexical definitions become rules over characters. An element with a
quantifier becomes a symbol of its own, named after the definition and the
number of symbols before it, with one rule for no or one occurrence and one
for another occurrence.
-/

namespace Scannerless

/-- The right sides of the symbol of an element with a quantifier, `self`
    being the symbol and `body` the element. -/
def Quantifier.alternatives (q : Quantifier) (self : SymbolId) (body : List SymbolId) :
    List (List SymbolId) :=
  match q with
  | .optional => [body, []]
  | .star => [[], self :: body]
  | .plus | .one => [body, self :: body]

namespace Drafting

/-- The symbol of an element with a quantifier in a definition of `name`. -/
def quantified (name : String) (body : List SymbolId) (q : Quantifier) (offset : Nat) :
    Drafting SymbolId := do
  let helper := name ++ "[" ++ toString (← get).symbols.size ++ "]"
  let id ← addSymbol helper .lexical offset
  (q.alternatives id body).forM fun rhs => addPlain .lexical id rhs helper (.apply none) 0
  return id

/-- The symbols of an element of a rule of `lhs`, whatever its quantifier. -/
def lexicalBody (o : Outline) (lhs : SymbolId) (item : RhsItem) :
    Drafting (List SymbolId) := do
  match ← Element.decodeAt item.element item.offset with
  | .terminal t => characterSymbols t item.offset
  | .name name =>
    if o.isStructural name then refuse (.structuralInLexical name) item.offset
    else
      match o.lexicalId? name with
      | none => refuse (.missingSymbol name) item.offset
      | some id =>
        modify fun d => { d with references := d.references ++ [(lhs, id)] }
        return [id]

/-- The symbols of an element of a rule of `lhs`, the symbol of `name`. -/
def lexicalItem (o : Outline) (lhs : SymbolId) (name : String) (item : RhsItem) :
    Drafting (List SymbolId) := do
  let body ← lexicalBody o lhs item
  if item.quantifier = .one then return body
  else return [← quantified name body item.quantifier item.offset]

/-- Adds the rule of an alternative of a lexical definition. -/
def lexicalAlternative (o : Outline) (lhs : SymbolId) (name : String) (alt : Alternative) :
    Drafting Unit := do
  match alt.adverbs with
  | a :: _ => refuse (.lexicalAdverb a.name) a.offset
  | [] =>
    let parts ← alt.rhs.mapM (lexicalItem o lhs name)
    addDeclared .lexical lhs parts.flatten name (.apply none) 0 alt.offset

def lexical (o : Outline) (spelling : String) (alternatives : List Alternative)
    (offset : Nat) : Drafting Unit := do
  let name ← Element.decodeNameAt spelling offset
  match o.lexicalId? name with
  | none => pure ()
  | some lhs => alternatives.forM (lexicalAlternative o lhs name)

end Drafting

end Scannerless
