import Scannerless.Outline

/-!
# Drafts of grammars

A grammar while its statements are read: the symbols and rules so far, and
what has been seen of terminals, lexemes and references.

Characters and terminals with one spelling share a symbol, and a rule that the
author wrote must not repeat.

## Main definitions

- `Draft` — the grammar so far; `Drafting` — steps that extend it or fail.
- `addSymbol`, `addRule`, `addDeclared` — new symbols and rules.
- `structuralSymbol`, `discardSymbol` — the symbol of an element among lexemes.
-/

namespace Scannerless

inductive Level where
  | structural
  | lexical
  deriving DecidableEq, Repr

/-- A grammar while its statements are read. `offsets` are those of the
    statements that introduced the symbols; `anonymous` and `characters` are
    the symbols of terminals and characters by spelling; `declared` are the
    rules that the author wrote; `lexemes` are the tokens of structural rules
    and `references` the pairs of a lexical symbol and one used in its rules,
    all in the order of their first use. -/
structure Draft where
  symbols : Array Symbol
  offsets : Array Nat
  anonymous : List (String × SymbolId)
  characters : List (String × SymbolId)
  structural : Array Rule
  lexical : Array Rule
  declared : List (Level × SymbolId × List SymbolId)
  lexemes : List SymbolId
  discards : List SymbolId
  references : List (SymbolId × SymbolId)

/-- A step that extends a draft or finds a fault. -/
abbrev Drafting := StateT Draft (Except Fault)

/-- The draft that has the symbols of an outline and nothing else. -/
def Draft.ofOutline (o : Outline) : Draft where
  symbols :=
    (o.structural.map (fun entry => Symbol.mk entry.1 .nonterminal)
      ++ o.lexical.map fun entry => Symbol.mk entry.1 .lexical).toArray
  offsets := (o.structural.map (·.2) ++ o.lexical.map (·.2)).toArray
  anonymous := []
  characters := []
  structural := #[]
  lexical := #[]
  declared := []
  lexemes := []
  discards := []
  references := []

def Draft.name (d : Draft) (s : SymbolId) : String :=
  match d.symbols[s]? with
  | some symbol => symbol.name
  | none => ""

def Draft.offset (d : Draft) (s : SymbolId) : Nat :=
  d.offsets.getD s 0

/-- Adds an element to the end of a list that does not hold it. -/
def insertLast {α : Type} [BEq α] (xs : List α) (x : α) : List α :=
  if xs.contains x then xs else xs ++ [x]

/-- A list after an insertion holds the element and what it held before. -/
theorem mem_insertLast {α : Type} [BEq α] [LawfulBEq α] {xs : List α} {x y : α} :
    y ∈ insertLast xs x ↔ y ∈ xs ∨ y = x := by
  rw [insertLast]
  split
  · next h =>
    constructor
    · exact Or.inl
    · rintro (old | rfl)
      · exact old
      · simpa using h
  · simp

namespace Drafting

def refuse {α : Type} (cause : Cause) (offset : Nat) : Drafting α :=
  throw ⟨cause, offset⟩

def addSymbol (name : String) (kind : SymbolKind) (offset : Nat) : Drafting SymbolId :=
  modifyGet fun d =>
    (d.symbols.size,
      { d with symbols := d.symbols.push ⟨name, kind⟩, offsets := d.offsets.push offset })

/-- The symbol of the characters of a class. -/
def characterSymbol (cls : CharClass) (offset : Nat) : Drafting SymbolId := do
  match (← get).characters.lookup cls.spelling with
  | some id => return id
  | none =>
    let id ← addSymbol cls.spelling (.char cls) offset
    modify fun d => { d with characters := (cls.spelling, id) :: d.characters }
    return id

/-- The symbols of the characters of a terminal. -/
def characterSymbols (t : Terminal) (offset : Nat) : Drafting (List SymbolId) :=
  t.classes.mapM fun cls => characterSymbol cls offset

def addRule (level : Level) (r : Rule) : Drafting Unit :=
  modify fun d =>
    match level with
    | .structural => { d with structural := d.structural.push r }
    | .lexical => { d with lexical := d.lexical.push r }

def addPlain (level : Level) (lhs : SymbolId) (rhs : List SymbolId) (name : String)
    (semantics : Semantics) (rank : Int) : Drafting Unit :=
  addRule level ⟨lhs, rhs, name, semantics, rhs.map fun _ => true, rank⟩

/-- Adds a rule that the author wrote at an offset; it must not repeat. -/
def addDeclared (level : Level) (lhs : SymbolId) (rhs : List SymbolId) (name : String)
    (semantics : Semantics) (rank : Int) (offset : Nat) : Drafting Unit := do
  let d ← get
  if d.declared.contains (level, lhs, rhs) then
    refuse (.duplicateRule (d.name lhs) (rhs.map d.name)) offset
  else
    set { d with declared := (level, lhs, rhs) :: d.declared }
    addPlain level lhs rhs name semantics rank

/-- The lexeme that consists of a terminal. -/
def anonymousLexeme (t : Terminal) (offset : Nat) : Drafting SymbolId := do
  match (← get).anonymous.lookup t.spelling with
  | some id => return id
  | none =>
    let id ← addSymbol t.spelling .lexeme offset
    modify fun d => { d with anonymous := (t.spelling, id) :: d.anonymous }
    let rhs ← characterSymbols t offset
    addPlain .lexical id rhs t.spelling (.apply none) 0
    return id

/-- The lexeme of a name with lexical rules. -/
def namedLexeme (o : Outline) (name : String) (offset : Nat) : Drafting SymbolId := do
  match o.lexicalId? name with
  | some id =>
    modify fun d => { d with symbols := d.symbols.modify id fun s => { s with kind := .lexeme } }
    return id
  | none => refuse (.missingSymbol name) offset

/-- Takes note that a symbol is a token of structural rules. -/
def useLexeme (id : SymbolId) : Drafting SymbolId := do
  modify fun d => { d with lexemes := insertLast d.lexemes id }
  return id

/-- The symbol of an element of a structural rule. -/
def structuralSymbol (o : Outline) (raw : String) (offset : Nat) : Drafting SymbolId := do
  match ← Element.decodeAt raw offset with
  | .name name =>
    match o.structuralId? name with
    | some id => return id
    | none => useLexeme (← namedLexeme o name offset)
  | .terminal t => useLexeme (← anonymousLexeme t offset)

def structuralSymbols (o : Outline) (items : List RhsItem) : Drafting (List SymbolId) :=
  items.mapM fun item => structuralSymbol o item.element item.offset

/-- The symbol of an element that is discarded. -/
def discardSymbol (o : Outline) (raw : String) (offset : Nat) : Drafting SymbolId := do
  match ← Element.decodeAt raw offset with
  | .name name =>
    if o.isStructural name then refuse (.structuralDiscard name) offset
    else namedLexeme o name offset
  | .terminal t => anonymousLexeme t offset

/-- Takes note of a discard statement. -/
def discard (o : Outline) (raw : String) (offset : Nat) : Drafting Unit := do
  let id ← discardSymbol o raw offset
  modify fun d => { d with discards := insertLast d.discards id }

end Drafting

end Scannerless
