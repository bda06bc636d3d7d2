import Scannerless.Grammar.RuleTable
import Scannerless.Roster

/-!
# Items

An item is a rule with a dot that shows how much of its right side is matched
and with the set it began in; it belongs to the set that the match ends in. The
sources of an item are the ways it came to be, other than by prediction.

Sets are known by number. Items are only ever added at the end of a set, so
that a set and an index remain the address of an item.

## Main definitions

- `Item`, `ItemRef` — items and their addresses.
- `Source`, `Entry` — ways to an item, and an item with the ways to it.
- `Item.order`, `Source.order` — the orders that items and sources are looked up
  by.
- `RuleTable.next?`, `RuleTable.isComplete` — what the dot of an item stands
  before.
-/

namespace Scannerless

/-- A rule, the number of symbols of its right side that are matched, and the
    set where the match began. -/
structure Item where
  rule : RuleId
  dot : Nat
  origin : Nat
  deriving DecidableEq, Repr

def Item.advanced (it : Item) : Item :=
  { it with dot := it.dot + 1 }

/-- Items are ordered by the set they began in, then by rule, then by dot. -/
def Item.order (a b : Item) : Ordering :=
  (compare a.origin b.origin).then ((compare a.rule b.rule).then (compare a.dot b.dot))

instance : Std.TransCmp Item.order :=
  inferInstanceAs
    (Std.TransCmp (compareLex (compareOn Item.origin)
      (compareLex (compareOn Item.rule) (compareOn Item.dot))))

instance : Std.LawfulEqCmp Item.order where
  eq_of_compare {a b} h := by
    obtain ⟨rule, dot, origin⟩ := a
    obtain ⟨rule', dot', origin'⟩ := b
    simp only [Item.order, Ordering.then_eq_eq, Nat.compare_eq_eq] at h
    obtain ⟨rfl, rfl, rfl⟩ := h
    rfl

/-- The address of an item: its set and its index there. -/
structure ItemRef where
  set : Nat
  index : Nat
  deriving DecidableEq, Repr

/-- How an item came to be. -/
inductive Source where
  /-- The item `source` moved over the symbol that `trigger` completes. -/
  | completed (source trigger : ItemRef)
  /-- The item `source` moved over a token that begins at `start`. -/
  | scanned (source : ItemRef) (start : Nat)
  deriving DecidableEq, Repr

def Source.item : Source → ItemRef
  | .completed source _ => source
  | .scanned source _ => source

namespace Source

/-- The number of the kind of a source. -/
def kind : Source → Nat
  | .completed _ _ => 0
  | .scanned _ _ => 1

/-- Where what was moved over is complete, or begins if it is a token. -/
def place : Source → Nat
  | .completed _ trigger => trigger.set
  | .scanned _ start => start

/-- The index of what was moved over, if it is not a token. -/
def index : Source → Nat
  | .completed _ trigger => trigger.index
  | .scanned _ _ => 0

/-- Sources are ordered by the item that moved, and then by what it moved
    over. -/
def order (a b : Source) : Ordering :=
  (compare a.item.set b.item.set).then ((compare a.item.index b.item.index).then
    ((compare a.kind b.kind).then ((compare a.place b.place).then (compare a.index b.index))))

instance : Std.TransCmp order :=
  inferInstanceAs
    (Std.TransCmp (compareLex (compareOn (·.item.set))
      (compareLex (compareOn (·.item.index))
        (compareLex (compareOn kind) (compareLex (compareOn place) (compareOn index))))))

instance : Std.LawfulEqCmp order where
  eq_of_compare {a b} h := by
    simp only [order, Ordering.then_eq_eq, Nat.compare_eq_eq] at h
    obtain ⟨sets, indexes, kinds, places, last⟩ := h
    rcases a with ⟨⟨set, i⟩, ⟨place, j⟩⟩ | ⟨⟨set, i⟩, start⟩ <;>
      rcases b with ⟨⟨set', i'⟩, ⟨place', j'⟩⟩ | ⟨⟨set', i'⟩, start'⟩ <;>
      simp_all [item, kind, Source.place, Source.index]

end Source

/-- An item with its sources in the order they were found. -/
structure Entry where
  item : Item
  sources : Array Source
  deriving DecidableEq, Repr

namespace RuleTable

def next? (t : RuleTable) (it : Item) : Option SymbolId :=
  (t.rhs it.rule)[it.dot]?

def lhs? (t : RuleTable) (id : RuleId) : Option SymbolId :=
  t.rules[id]?.map (·.lhs)

def isComplete (t : RuleTable) (it : Item) : Bool :=
  (t.rhs it.rule).length ≤ it.dot

end RuleTable

end Scannerless
