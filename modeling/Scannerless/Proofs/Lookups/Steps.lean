import Scannerless.Definition

/-!
# Steps that look things up

The steps that read statements take names, symbols, offsets and places of lists to be there, and
go on with a default where they are not. Here they are once more, with every lookup made
explicit: a lookup that finds nothing leaves a step without any outcome, and even without a fault.

## Main definitions

- `Checked` — steps in which lookups may find nothing; `Checked.found` is the outcome of one.
- `Outline.ids` — the table of names that symbols are looked up in.
- `Checked.addRule`, `Checked.sequence`, `Checked.precedence` — steps with their lookups.
- `Checked.statements` — reads all statements.
-/

namespace Scannerless

/-- Steps that extend a draft or find a fault, and have no outcome if a lookup finds nothing. -/
abbrev Checked :=
  StateT Draft (ExceptT Fault Option)

/-- The symbols of all names. Symbols are numbered in the order of the names, and of two entries
    with one name the later one counts, which comes first here. -/
def Outline.ids (o : Outline) : List (String × SymbolId) :=
  ((o.structural ++ o.lexical).map (·.1)).zipIdx.reverse

namespace Checked

/-- A step that looks nothing up. -/
def ofDrafting {α : Type} (m : Drafting α) : Checked α :=
  fun d => ExceptT.mk (some (m.run d))

def read {α : Type} (x : Except Fault α) : Checked α :=
  ofDrafting (liftM x)

/-- The outcome of a lookup. -/
def found {α : Type} (x : Option α) : Checked α :=
  fun d => ExceptT.mk (x.map fun a => .ok (a, d))

def idOf (o : Outline) (name : String) : Checked SymbolId :=
  found (o.ids.lookup name)

def symbolAt (s : SymbolId) : Checked Symbol := do
  found (← get).symbols[s]?

def nameOf (s : SymbolId) : Checked String := do
  let symbol ← symbolAt s
  return symbol.name

def offsetOf (s : SymbolId) : Checked Nat := do
  found (← get).offsets[s]?

/-! ### Rules -/

/-- Adds a rule, the names of whose symbols are looked up for its text. -/
def addRule (level : Level) (r : Rule) : Checked Unit := do
  let _ ← nameOf r.lhs
  let _ ← r.rhs.mapM nameOf
  ofDrafting (Drafting.addRule level r)

def addPlain (level : Level) (lhs : SymbolId) (rhs : List SymbolId) (name : String)
    (semantics : Semantics) (rank : Int) : Checked Unit :=
  addRule level ⟨lhs, rhs, name, semantics, rhs.map fun _ => true, rank⟩

def addDeclared (level : Level) (lhs : SymbolId) (rhs : List SymbolId) (name : String)
    (semantics : Semantics) (rank : Int) (offset : Nat) : Checked Unit := do
  let d ← get
  if d.declared.contains (level, lhs, rhs) then
    let left ← nameOf lhs
    let right ← rhs.mapM nameOf
    throw ⟨.duplicateRule left right, offset⟩
  else
    set { d with declared := (level, lhs, rhs) :: d.declared }
    addPlain level lhs rhs name semantics rank

/-! ### Symbols of elements -/

def addSymbol (name : String) (kind : SymbolKind) (offset : Nat) : Checked SymbolId :=
  ofDrafting (Drafting.addSymbol name kind offset)

def characterSymbol (cls : CharClass) (offset : Nat) : Checked SymbolId := do
  match (← get).characters.lookup cls.spelling with
  | some id => return id
  | none =>
    let id ← addSymbol cls.spelling (.char cls) offset
    modify fun d => { d with characters := (cls.spelling, id) :: d.characters }
    return id

def characterSymbols (t : Terminal) (offset : Nat) : Checked (List SymbolId) :=
  t.classes.mapM fun cls => characterSymbol cls offset

def anonymousLexeme (t : Terminal) (offset : Nat) : Checked SymbolId := do
  match (← get).anonymous.lookup t.spelling with
  | some id => return id
  | none =>
    let id ← addSymbol t.spelling .lexeme offset
    modify fun d => { d with anonymous := (t.spelling, id) :: d.anonymous }
    let rhs ← characterSymbols t offset
    addPlain .lexical id rhs t.spelling (.apply none) 0
    return id

def namedLexeme (o : Outline) (name : String) (offset : Nat) : Checked SymbolId := do
  if o.isLexical name then
    let id ← idOf o name
    let symbol ← symbolAt id
    modify fun d =>
      { d with symbols := d.symbols.setIfInBounds id { symbol with kind := .lexeme } }
    return id
  else throw ⟨.missingSymbol name, offset⟩

def useLexeme (id : SymbolId) : Checked SymbolId := do
  modify fun d => { d with lexemes := insertLast d.lexemes id }
  return id

def structuralSymbol (o : Outline) (raw : String) (offset : Nat) : Checked SymbolId := do
  match ← read (Element.decodeAt raw offset) with
  | .name name =>
    if o.isStructural name then idOf o name
    else useLexeme (← namedLexeme o name offset)
  | .terminal t => useLexeme (← anonymousLexeme t offset)

def structuralSymbols (o : Outline) (items : List RhsItem) : Checked (List SymbolId) :=
  items.mapM fun item => structuralSymbol o item.element item.offset

def discardSymbol (o : Outline) (raw : String) (offset : Nat) : Checked SymbolId := do
  match ← read (Element.decodeAt raw offset) with
  | .name name =>
    if o.isStructural name then throw ⟨.structuralDiscard name, offset⟩
    else namedLexeme o name offset
  | .terminal t => anonymousLexeme t offset

def discard (o : Outline) (raw : String) (offset : Nat) : Checked Unit := do
  let id ← discardSymbol o raw offset
  modify fun d => { d with discards := insertLast d.discards id }

/-! ### Structural statements -/

def plainAlternative (o : Outline) (lhs : SymbolId) (name : String) (alt : Alternative) :
    Checked Unit := do
  let adverbs ← read (RuleAdverbs.read false alt.adverbs)
  let rhs ← structuralSymbols o alt.rhs
  addDeclared .structural lhs rhs name (.apply adverbs.action) adverbs.rank alt.offset

/-- Adds the rules of a sequence, whose item is the first one of its right side. -/
def sequence (o : Outline) (lhs : SymbolId) (name : String) (alt : Alternative) :
    Checked Unit := do
  let item ← found alt.rhs[0]?
  let adverbs ← read (RuleAdverbs.read true alt.adverbs)
  let element ← structuralSymbol o item.element item.offset
  let separator ← adverbs.separator.mapM fun (raw, offset) => structuralSymbol o raw offset
  let items ← addSymbol (name ++ "[Seq]") .nonterminal alt.offset
  let apply := Semantics.apply adverbs.action
  addPlain .structural items [element] name .splice 0
  match separator with
  | none => addPlain .structural items [items, element] name .splice 0
  | some s =>
    addRule .structural
      ⟨items, [items, s, element], name, .splice, [true, adverbs.keep, true], 0⟩
  addPlain .structural lhs [items] name apply adverbs.rank
  match separator with
  | some s =>
    if adverbs.proper then pure ()
    else
      addRule .structural ⟨lhs, [items, s], name, apply, [true, adverbs.keep], adverbs.rank⟩
  | none => pure ()
  if item.quantifier = .star then addPlain .structural lhs [] name apply adverbs.rank

def alternative (o : Outline) (lhs : SymbolId) (name : String) (alone : Bool)
    (alt : Alternative) : Checked Unit :=
  match alt.rhs.find? fun item => item.quantifier != .one with
  | none => plainAlternative o lhs name alt
  | some item =>
    if alt.rhs.length = 1 ∧ item.quantifier ≠ .optional ∧ alone then sequence o lhs name alt
    else throw ⟨.misplacedQuantifier, item.offset⟩

/-- The places of a name among elements, the first of which stands at `k`. -/
def operandsFrom (name : String) (k : Nat) (elements : List Element) : List Nat :=
  ((elements.zipIdx k).filter (·.1 == Element.name name)).map (·.2)

/-- Puts the symbol of an operand at a place, if there is such a place. `first` and `last` are
    the first and the last place of operands. -/
def placeOne (a : Associativity) (lhs current tighter : SymbolId) (first last : Option Nat)
    (rhs : List SymbolId) (place : Nat) : Option (List SymbolId) :=
  if place < rhs.length then
    some (rhs.set place
      (a.operand lhs current tighter (first == some place) (last == some place)))
  else none

def placeAll (a : Associativity) (lhs current tighter : SymbolId) (operands : List Nat)
    (rhs : List SymbolId) : Option (List SymbolId) :=
  operands.foldlM (placeOne a lhs current tighter operands.head? operands.getLast?) rhs

def tierAlternative (o : Outline) (lhs : SymbolId) (name : String)
    (current tighter : SymbolId) (alt : Alternative) : Checked Unit := do
  match alt.rhs.find? fun item => item.quantifier != .one with
  | some item => throw ⟨.quantifiedTier, item.offset⟩
  | none =>
    let adverbs ← read (RuleAdverbs.read false alt.adverbs)
    let elements ← alt.rhs.mapM fun item => read (Element.decodeAt item.element item.offset)
    let rhs ← structuralSymbols o alt.rhs
    let rhs ← found
      (placeAll adverbs.associativity lhs current tighter (operandsFrom name 0 elements) rhs)
    addDeclared .structural current rhs name (.apply adverbs.action) adverbs.rank alt.offset

/-- Adds the symbols and rules of a definition in tiers. The symbols of tiers are looked up by
    the numbers of the tiers. -/
def precedence (o : Outline) (lhs : SymbolId) (name : String)
    (tiers : List (List Alternative)) : Checked Unit := do
  let offset ← offsetOf lhs
  let levels ← (List.range tiers.length).mapM fun p =>
    addSymbol (name ++ "[" ++ toString p ++ "]") .nonterminal offset
  let loosest ← found levels[levels.length - 1]?
  addPlain .structural lhs [loosest] name .splice 0
  (List.range (levels.length - 1)).forM fun p => do
    let current ← found levels[p + 1]?
    let tighter ← found levels[p]?
    addPlain .structural current [tighter] name .splice 0
  tiers.zipIdx.forM fun (alternatives, p) => do
    let current ← found levels[p]?
    let tighter ← found levels[p - 1]?
    alternatives.forM (tierAlternative o lhs name current tighter)

def structural (o : Outline) (spelling : String) (tiers : List (List Alternative))
    (offset : Nat) : Checked Unit := do
  let name ← read (Element.decodeNameAt spelling offset)
  let lhs ← idOf o name
  if tiers.length > 1 then precedence o lhs name tiers
  else
    let alternatives ← found tiers[0]?
    alternatives.forM (alternative o lhs name (alternatives.length == 1))

/-! ### Lexical statements -/

def quantified (name : String) (body : List SymbolId) (q : Quantifier) (offset : Nat) :
    Checked SymbolId := do
  let helper := name ++ "[" ++ toString (← get).symbols.size ++ "]"
  let id ← addSymbol helper .lexical offset
  (q.alternatives id body).forM fun rhs => addPlain .lexical id rhs helper (.apply none) 0
  return id

def lexicalBody (o : Outline) (lhs : SymbolId) (item : RhsItem) : Checked (List SymbolId) := do
  match ← read (Element.decodeAt item.element item.offset) with
  | .terminal t => characterSymbols t item.offset
  | .name name =>
    if o.isStructural name then throw ⟨.structuralInLexical name, item.offset⟩
    else
      match o.ids.lookup name with
      | none => throw ⟨.missingSymbol name, item.offset⟩
      | some id =>
        if o.isLexical name then
          modify fun d => { d with references := d.references ++ [(lhs, id)] }
          return [id]
        else throw ⟨.missingSymbol name, item.offset⟩

def lexicalItem (o : Outline) (lhs : SymbolId) (name : String) (item : RhsItem) :
    Checked (List SymbolId) := do
  let body ← lexicalBody o lhs item
  if item.quantifier = .one then return body
  else return [← quantified name body item.quantifier item.offset]

def lexicalAlternative (o : Outline) (lhs : SymbolId) (name : String) (alt : Alternative) :
    Checked Unit := do
  match alt.adverbs with
  | a :: _ => throw ⟨.lexicalAdverb a.name, a.offset⟩
  | [] =>
    let parts ← alt.rhs.mapM (lexicalItem o lhs name)
    addDeclared .lexical lhs parts.flatten name (.apply none) 0 alt.offset

def lexical (o : Outline) (spelling : String) (alternatives : List Alternative)
    (offset : Nat) : Checked Unit := do
  let name ← read (Element.decodeNameAt spelling offset)
  let lhs ← idOf o name
  alternatives.forM (lexicalAlternative o lhs name)

/-! ### All statements -/

/-- Reads all statements, those of one kind after those of another. -/
def statements (o : Outline) (ss : List Statement) : Checked Unit := do
  ss.forM fun
    | .discard element offset => discard o element offset
    | _ => pure ()
  ss.forM fun
    | .structural lhs tiers offset => structural o lhs tiers offset
    | _ => pure ()
  ss.forM fun
    | .lexical lhs alternatives offset => lexical o lhs alternatives offset
    | _ => pure ()

end Checked

end Scannerless
