import Scannerless.Draft.Basic

/-!
# Structural rules

How structural definitions become rules. A plain alternative is a rule. A
sequence and a definition in tiers get symbols of their own, whose rules hand
their values on.

- `L ::= item*` has `L[Seq] ::= item`, `L[Seq] ::= L[Seq] separator item` and
  `L ::= L[Seq]`, a rule with a separator at the end unless the sequence is
  proper, and an empty rule.
- `E ::= tier0 || … || tierN` has `E ::= E[N]`, `E[p] ::= E[p-1]`, and the
  alternatives of tier p as rules of `E[p]`. An operand stands for the tier of
  its alternative or the one that is tighter, as the associativity says.
-/

namespace Scannerless

/-- The symbol that an operand stands for, given whether it is the first and
    whether it is the last one of its alternative. -/
def Associativity.operand (a : Associativity) (lhs current tighter : SymbolId)
    (isFirst isLast : Bool) : SymbolId :=
  match a with
  | .left => if isFirst then current else tighter
  | .right => if isLast then current else tighter
  | .group => lhs

/-- Puts the symbols of the operands into a right side, `operands` telling
    which of its places are operands and `isFirst` whether none has come
    before. -/
def placeOperands (a : Associativity) (lhs current tighter : SymbolId) (isFirst : Bool) :
    (operands : List Bool) → (rhs : List SymbolId) → List SymbolId
  | true :: operands, _ :: rhs =>
    a.operand lhs current tighter isFirst (!operands.contains true)
      :: placeOperands a lhs current tighter false operands rhs
  | false :: operands, s :: rhs =>
    s :: placeOperands a lhs current tighter isFirst operands rhs
  | _, rhs => rhs

namespace Drafting

/-- Adds the rule of an alternative without quantifiers. -/
def plainAlternative (o : Outline) (lhs : SymbolId) (name : String) (alt : Alternative) :
    Drafting Unit := do
  let adverbs ← RuleAdverbs.read false alt.adverbs
  let rhs ← structuralSymbols o alt.rhs
  addDeclared .structural lhs rhs name (.apply adverbs.action) adverbs.rank alt.offset

/-- Adds the rules of a sequence whose items are spelled by `item`. -/
def sequence (o : Outline) (lhs : SymbolId) (name : String) (item : RhsItem)
    (alt : Alternative) : Drafting Unit := do
  let adverbs ← RuleAdverbs.read true alt.adverbs
  let element ← structuralSymbol o item.element item.offset
  let separator ← adverbs.separator.mapM fun (raw, offset) => structuralSymbol o raw offset
  let items ← addSymbol (name ++ "[Seq]") .nonterminal alt.offset
  let apply := Semantics.apply adverbs.action
  addPlain .structural items [element] name .splice 0
  match separator with
  | none => addPlain .structural items [items, element] name .splice 0
  | some s =>
    addRule .structural
      ⟨items, [items, s, element], name, .splice, [true, adverbs.keep, true], 0⟩
  addPlain .structural lhs [items] name apply adverbs.rank
  match separator with
  | some s =>
    if adverbs.proper then pure ()
    else
      addRule .structural ⟨lhs, [items, s], name, apply, [true, adverbs.keep], adverbs.rank⟩
  | none => pure ()
  if item.quantifier = .star then addPlain .structural lhs [] name apply adverbs.rank

/-- Adds the rules of one of the alternatives of a definition without tiers,
    `alone` telling whether it is the only one. -/
def alternative (o : Outline) (lhs : SymbolId) (name : String) (alone : Bool)
    (alt : Alternative) : Drafting Unit :=
  match alt.rhs.find? fun item => item.quantifier != .one with
  | none => plainAlternative o lhs name alt
  | some item =>
    if alt.rhs.length = 1 ∧ item.quantifier ≠ .optional ∧ alone then
      sequence o lhs name item alt
    else refuse .misplacedQuantifier item.offset

/-- Adds the rule of an alternative of a tier with the symbol `current`, the
    next tighter tier having the symbol `tighter`. -/
def tierAlternative (o : Outline) (lhs : SymbolId) (name : String)
    (current tighter : SymbolId) (alt : Alternative) : Drafting Unit := do
  match alt.rhs.find? fun item => item.quantifier != .one with
  | some item => refuse .quantifiedTier item.offset
  | none =>
    let adverbs ← RuleAdverbs.read false alt.adverbs
    let elements ← alt.rhs.mapM fun item => Element.decodeAt item.element item.offset
    let rhs ← structuralSymbols o alt.rhs
    let operands := elements.map (· == Element.name name)
    addDeclared .structural current
      (placeOperands adverbs.associativity lhs current tighter true operands rhs) name
      (.apply adverbs.action) adverbs.rank alt.offset

/-- Adds the symbols and rules of a definition in tiers. The tightest tier is
    next to itself. -/
def precedence (o : Outline) (lhs : SymbolId) (name : String)
    (tiers : List (List Alternative)) : Drafting Unit := do
  let offset := (← get).offset lhs
  let levels ← (List.range tiers.length).mapM fun p =>
    addSymbol (name ++ "[" ++ toString p ++ "]") .nonterminal offset
  levels.getLast?.forM fun loosest => addPlain .structural lhs [loosest] name .splice 0
  (levels.tail.zip levels).forM fun (current, tighter) =>
    addPlain .structural current [tighter] name .splice 0
  (tiers.zip (levels.zip (levels.take 1 ++ levels))).forM fun (alternatives, current, tighter) =>
    alternatives.forM (tierAlternative o lhs name current tighter)

def structural (o : Outline) (spelling : String) (tiers : List (List Alternative))
    (offset : Nat) : Drafting Unit := do
  let name ← Element.decodeNameAt spelling offset
  match o.structuralId? name with
  | none => pure ()
  | some lhs =>
    match tiers with
    | [alternatives] => alternatives.forM (alternative o lhs name (alternatives.length == 1))
    | _ => precedence o lhs name tiers

end Drafting

end Scannerless
