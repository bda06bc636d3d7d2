import Scannerless.Chart.Item

/-!
# State sets

The items at one place of an input, each once, in the order they were added,
with their sources, each once. An index tells in a few steps which items wait
for a symbol; what it tells is what a search through the items would find.

## Main definitions

- `StateSet` — items with their sources and the index.
- `StateSet.add` — adds an item, or one more source to an item that is there.
- `StateSet.items`, `StateSet.sourcesAt` — the views: the items in order, and
  the sources of an item.
- `StateSet.select`, `StateSet.waitingFor` — items with their indexes.

## Main statements

- `StateSet.items_add` — an item that is there is not added again, and a new one
  comes last.
- `StateSet.waitingFor_eq` — the index of waiting items agrees with a search.
-/

namespace Scannerless

/-- The items of a list that satisfy a test, with their indexes. -/
def selectItems (test : Item → Bool) (its : List Item) : List (Item × Nat) :=
  its.zipIdx.filter fun found => test found.1

/-- The items of a list that wait for a symbol, with their indexes. -/
def selectWaiting (t : RuleTable) (s : SymbolId) (its : List Item) : List (Item × Nat) :=
  selectItems (fun it => t.next? it == some s) its

/-- One more item is selected if it satisfies the test. -/
theorem selectItems_append (test : Item → Bool) (its : List Item) (it : Item) :
    selectItems test (its ++ [it]) =
      selectItems test its ++ if test it then [(it, its.length)] else [] := by
  simp only [selectItems, List.zipIdx_append, List.filter_append, List.zipIdx_singleton]
  by_cases h : test it <;> simp [h]

/-- Nothing is selected exactly if no item satisfies the test. -/
theorem selectItems_eq_nil_iff (test : Item → Bool) (its : List Item) :
    selectItems test its = [] ↔ ∀ it ∈ its, test it = false := by
  rw [selectItems, List.filter_eq_nil_iff]
  constructor
  · intro none it member
    obtain ⟨index, inside, rfl⟩ := List.mem_iff_getElem.mp member
    have found := List.mk_mem_zipIdx_iff_getElem?.mpr (List.getElem?_eq_getElem inside)
    simpa using none (its[index], index) found
  · intro none found member
    simp [none found.1 (List.fst_mem_of_mem_zipIdx member)]

abbrev Sources :=
  Roster Source Source.order

def Sources.addTo (sources : Sources) : Option Source → Sources
  | some s => sources.insert s
  | none => sources

/-- Items that wait for symbols, with their indexes, the last one first. -/
abbrev Waiting :=
  Std.TreeMap SymbolId (List (Item × Nat))

/-- The items that wait for symbols, with one more item at an index. -/
def Waiting.enter (t : RuleTable) (waiting : Waiting) (it : Item) (index : Nat) : Waiting :=
  match t.next? it with
  | some s => waiting.insert s ((it, index) :: waiting.getD s [])
  | none => waiting

/-- An item that is entered waits for the symbol after its dot. -/
theorem Waiting.getD_enter {t : RuleTable} {waiting : Waiting} {its : List Item}
    (h : ∀ s, waiting.getD s [] = (selectWaiting t s its).reverse) (it : Item) (s : SymbolId) :
    (waiting.enter t it its.length).getD s [] = (selectWaiting t s (its ++ [it])).reverse := by
  rw [selectWaiting, selectItems_append, enter]
  cases next : t.next? it with
  | none => simp [h, selectWaiting]
  | some r =>
    rw [Std.TreeMap.getD_insert]
    by_cases same : r = s
    · simp [same, h, selectWaiting]
    · simp [same, h, selectWaiting]

/-- The items at one place, of the rules of a table, with the sources of each,
    and with the items that wait for each symbol. -/
structure StateSet (t : RuleTable) where
  roster : Roster Item Item.order
  sources : Array Sources
  waiting : Waiting
  size_sources : sources.size = roster.size
  waiting_eq : ∀ s, waiting.getD s [] = (selectWaiting t s roster.toList).reverse

namespace StateSet

variable {t : RuleTable}

def empty : StateSet t where
  roster := .empty
  sources := #[]
  waiting := ∅
  size_sources := rfl
  waiting_eq s := by simp [selectWaiting, selectItems]

def size (set : StateSet t) : Nat :=
  set.roster.size

def isEmpty (set : StateSet t) : Bool :=
  set.size == 0

def items (set : StateSet t) : List Item :=
  set.roster.toList

def item? (set : StateSet t) (index : Nat) : Option Item :=
  set.roster.elements[index]?

/-- The sources of the item at an index, in the order they were added. -/
def sourcesAt (set : StateSet t) (index : Nat) : Array Source :=
  (set.sources.getD index .empty).elements

/-- The item at an index with its sources. -/
def get? (set : StateSet t) (index : Nat) : Option Entry :=
  (set.item? index).map fun it => ⟨it, set.sourcesAt index⟩

def entries (set : StateSet t) : List Entry :=
  set.items.zipWith (fun it sources => ⟨it, sources.elements⟩) set.sources.toList

/-- Adds an item that is not there, with its source, if it has one. -/
def push (set : StateSet t) (it : Item) (source : Option Source)
    (new : set.roster.index? it = none) : StateSet t :=
  let size := set.roster.size
  { roster := set.roster.push it new
    sources := set.sources.push (Sources.addTo .empty source)
    waiting := set.waiting.enter t it size
    size_sources := by
      rw [Array.size_push, set.size_sources, ← Roster.length_toList, ← Roster.length_toList,
        Roster.toList_push, List.length_append, List.length_singleton]
    waiting_eq := by
      intro s
      rw [Roster.toList_push]
      show (set.waiting.enter t it set.roster.size).getD s [] = _
      rw [← Roster.length_toList]
      exact Waiting.getD_enter set.waiting_eq it s }

/-- Adds a source, if there is one, to the item at an index. -/
def addSource (set : StateSet t) (index : Nat) (source : Option Source) : StateSet t where
  roster := set.roster
  sources := set.sources.modify index (·.addTo source)
  waiting := set.waiting
  size_sources := by rw [Array.size_modify, set.size_sources]
  waiting_eq := set.waiting_eq

/-- Adds an item, or its source to the item that is there. -/
def add (set : StateSet t) (it : Item) (source : Option Source) : StateSet t :=
  match found : set.roster.index? it with
  | some index => set.addSource index source
  | none => set.push it source found

/-- The items that satisfy a test, with their indexes. -/
def select (set : StateSet t) (test : Item → Bool) : List (Item × Nat) :=
  selectItems test set.items

/-- The items that wait for a symbol, with their indexes. -/
def waitingFor (set : StateSet t) (s : SymbolId) : List (Item × Nat) :=
  (set.waiting.getD s []).reverse

/-- The items that wait for a symbol are those with the symbol after the
    dot. -/
theorem waitingFor_eq (set : StateSet t) (s : SymbolId) :
    set.waitingFor s = set.select fun it => t.next? it == some s := by
  rw [waitingFor, set.waiting_eq, List.reverse_reverse]
  rfl

/-- Nothing is selected exactly if no item satisfies the test. -/
theorem select_eq_nil_iff (set : StateSet t) (test : Item → Bool) :
    set.select test = [] ↔ ∀ it ∈ set.items, test it = false :=
  selectItems_eq_nil_iff test set.items

/-- There are as many items as the size says. -/
@[simp]
theorem length_items (set : StateSet t) : set.items.length = set.size :=
  set.roster.length_toList

@[simp]
theorem items_empty : (empty : StateSet t).items = [] :=
  rfl

/-- A set holds no item twice. -/
theorem nodup_items (set : StateSet t) : set.items.Nodup :=
  set.roster.nodup_toList

/-- No item has a source twice. -/
theorem nodup_sourcesAt (set : StateSet t) (index : Nat) :
    (set.sourcesAt index).toList.Nodup :=
  (set.sources.getD index .empty).nodup

/-- An item that is there is not added again, and a new one comes last. -/
theorem items_add (set : StateSet t) (it : Item) (source : Option Source) :
    (set.add it source).items = if it ∈ set.items then set.items else set.items ++ [it] := by
  have known : set.roster.index? it = none ↔ it ∉ set.items :=
    set.roster.index?_eq_none_iff it
  rw [add]
  split
  next index there =>
    rw [if_pos (by simpa [there] using known)]
    rfl
  next new =>
    rw [if_neg (known.mp new)]
    exact set.roster.toList_push it new

end StateSet

end Scannerless
