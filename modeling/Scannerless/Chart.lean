import Scannerless.Chart.StateSet
import Std.Data.TreeSet

/-!
# Charts

A chart records which rules of a table may be under way at each place of an
input: it has a set of items for each place.

## Main definitions

- `Chart.add` — adds an item, or one more source to an item that is there.
- `Chart.close` — predicts and completes until a set does not grow.
- `Chart.scan` — moves items over a token into a later set.
- `Chart.expected` — the tokens that the items of a set wait for.
- `Chart.completed` — the complete items of a symbol between two sets.
- `Chart.completedSymbols` — the symbols with such items.

## Main statements

- `Chart.setAt_add_self`, `Chart.setAt_add_of_ne` — adding an item adds it to its
  set and changes no other one.
- `Chart.mem_expected` — a token is expected exactly if an item waits for it.
- `Chart.contains_completedSymbols` — a symbol is among the completed ones exactly
  if it has complete items.
-/

namespace Scannerless

variable {t : RuleTable}

def countItems (sets : Array (StateSet t)) : Nat :=
  sets.foldl (fun n set => n + set.size) 0

theorem foldl_size_eq_add (sets : List (StateSet t)) (n : Nat) :
    sets.foldl (fun n set => n + set.size) n =
      n + sets.foldl (fun n set => n + set.size) 0 := by
  induction sets generalizing n with
  | nil => rfl
  | cons set sets ih =>
    rw [List.foldl_cons, List.foldl_cons, ih (n + set.size), ih (0 + set.size)]
    omega

/-- Changing a set changes the number of items by as many as that of the set. -/
theorem foldl_size_modify (sets : List (StateSet t)) (k : Nat)
    (f : StateSet t → StateSet t) :
    (sets.modify k f).foldl (fun n set => n + set.size) 0 + (sets.getD k .empty).size =
      sets.foldl (fun n set => n + set.size) 0 + ((sets.modify k f).getD k .empty).size := by
  induction sets generalizing k with
  | nil => simp
  | cons set sets ih =>
    cases k with
    | zero =>
      simp only [List.modify_zero_cons, List.foldl_cons, List.getD_cons_zero]
      rw [foldl_size_eq_add sets (0 + (f set).size), foldl_size_eq_add sets (0 + set.size)]
      omega
    | succ k =>
      simp only [List.modify_succ_cons, List.foldl_cons, List.getD_cons_succ]
      rw [foldl_size_eq_add _ (0 + set.size), foldl_size_eq_add sets (0 + set.size)]
      have := ih k
      omega

/-- Changing a set changes the number of items by as many as that of the set. -/
theorem countItems_modify (sets : Array (StateSet t)) (k : Nat)
    (f : StateSet t → StateSet t) :
    countItems (sets.modify k f) =
      countItems sets + ((sets.modify k f).getD k .empty).size
        - (sets.getD k .empty).size := by
  have count := foldl_size_modify sets.toList k f
  have same (xs : Array (StateSet t)) : xs.toList.getD k .empty = xs.getD k .empty := by
    simp
  rw [← Array.toList_modify, same, same, Array.foldl_toList, Array.foldl_toList] at count
  rw [countItems, countItems]
  omega

/-- The sets of items by number, and the number of items in them; a set that
    nothing reaches is empty. -/
structure Chart (t : RuleTable) where
  sets : Array (StateSet t)
  numItems : Nat
  numItems_eq : numItems = countItems sets

namespace Chart

def ofSets (sets : Array (StateSet t)) : Chart t :=
  ⟨sets, countItems sets, rfl⟩

/-- The chart of the given number of empty sets. -/
def ofSize (count : Nat) : Chart t :=
  ofSets (Array.replicate count .empty)

def grow (c : Chart t) : Chart t where
  sets := c.sets.push .empty
  numItems := c.numItems
  numItems_eq := by
    rw [c.numItems_eq, countItems, countItems, ← Array.foldl_toList, ← Array.foldl_toList,
      Array.toList_push, List.foldl_append]
    rfl

def setAt (c : Chart t) (k : Nat) : StateSet t :=
  c.sets.getD k .empty

def entry? (c : Chart t) (ref : ItemRef) : Option Entry :=
  (c.setAt ref.set).get? ref.index

/-- Adds an item to a set, or its source to the item that is there. -/
def add (c : Chart t) (k : Nat) (it : Item) (source : Option Source) : Chart t :=
  let size := (c.setAt k).size
  let sets := c.sets.modify k fun set => set.add it source
  ⟨sets, c.numItems + (sets.getD k .empty).size - size, by
    rw [countItems_modify, c.numItems_eq]
    rfl⟩

theorem setAt_add_of_ne (c : Chart t) {j k : Nat} (h : j ≠ k) (it : Item)
    (source : Option Source) : (c.add k it source).setAt j = c.setAt j := by
  simp [setAt, add, Array.getElem?_modify, h.symm]

theorem setAt_add_self {c : Chart t} {k : Nat} (h : k < c.sets.size) (it : Item)
    (source : Option Source) : (c.add k it source).setAt k = (c.setAt k).add it source := by
  simp [setAt, add, h, Array.getElem_modify]

/-- Adding an item changes the number of no sets. -/
@[simp]
theorem size_sets_add (c : Chart t) (k : Nat) (it : Item) (source : Option Source) :
    (c.add k it source).sets.size = c.sets.size := by
  simp [add]

/-- Adds the rules of a symbol to a set, not begun yet. -/
def predict (c : Chart t) (k : Nat) (s : SymbolId) : Chart t :=
  (t.rulesFor s).foldl (fun c r => c.add k ⟨r, 0, k⟩ none) c

/-- A chart while one of its sets is closed, with the symbols completed so far
    that begin and end in this set, and the indexes of their items. -/
structure Closing (t : RuleTable) where
  chart : Chart t
  nulled : List (SymbolId × Nat)

/-- Predicts the symbol `s` after the dot of the item `it` at index `i` of set
    `k`, and moves the item over `s` if it has been completed empty before. -/
def Closing.predict (k i : Nat) (it : Item) (s : SymbolId) (w : Closing t) : Closing t :=
  let triggers := w.nulled.filter (·.1 == s)
  { chart :=
      triggers.foldl
        (fun c trigger =>
          c.add k it.advanced (some (.completed ⟨k, i⟩ ⟨k, trigger.2⟩)))
        (w.chart.predict k s)
    nulled := w.nulled }

/-- Moves all items that wait for the symbol `s`, which the item `it` at index
    `i` of set `k` completes. In set `k` itself these are the items before
    it. -/
def Closing.complete (k i : Nat) (it : Item) (s : SymbolId) (w : Closing t) : Closing t :=
  let here := it.origin == k
  let waiting := (w.chart.setAt it.origin).waitingFor s
  { chart :=
      (if here then waiting.filter (·.2 < i) else waiting).foldl
        (fun c found =>
          c.add k found.1.advanced (some (.completed ⟨it.origin, found.2⟩ ⟨k, i⟩)))
        w.chart
    nulled := if here then w.nulled ++ [(s, i)] else w.nulled }

/-- Does what the item at index `i` of set `k` calls for. -/
def Closing.step (k i : Nat) (w : Closing t) : Closing t :=
  match (w.chart.setAt k).item? i with
  | none => w
  | some it =>
    match t.next? it with
    | some s => if t.hasRules s then w.predict k i it s else w
    | none =>
      match t.lhs? it.rule with
      | some s => w.complete k i it s
      | none => w

/-- Goes through the items of set `k` from index `i` on while it grows, and
    through `steps` items at most. -/
def Closing.run (k : Nat) : (steps i : Nat) → Closing t → Closing t
  | 0, _, w => w
  | steps + 1, i, w =>
    if i < (w.chart.setAt k).size then Closing.run k steps (i + 1) (w.step k i) else w

/-- Predicts and completes until set `k` does not grow. There are no more
    different items than dots in rules times sets to begin in. -/
def close (c : Chart t) (k : Nat) : Chart t :=
  (Closing.run k (t.dotted * (k + 1)) 0 ⟨c, []⟩).chart

/-- Moves the items of set `k` that wait for the token `s` into set `j`, the
    token beginning at `start`. -/
def scan (c : Chart t) (k : Nat) (s : SymbolId) (start j : Nat) : Chart t :=
  ((c.setAt k).waitingFor s).foldl
    (fun c found => c.add j found.1.advanced (some (.scanned ⟨k, found.2⟩ start))) c

/-- The symbols without rules that the items of set `k` wait for, each where it
    is first met. -/
def expected (c : Chart t) (k : Nat) : List SymbolId :=
  let awaited := (c.setAt k).items.filterMap t.next?
  (Roster.ofList compare (awaited.filter fun s => !t.hasRules s)).toList

/-- A symbol without rules is expected exactly if an item waits for it. -/
theorem mem_expected (c : Chart t) (k : Nat) (s : SymbolId) :
    s ∈ c.expected k ↔
      (∃ it ∈ (c.setAt k).items, t.next? it = some s) ∧ t.hasRules s = false := by
  simp [expected]

/-- No symbol is expected twice. -/
theorem nodup_expected (c : Chart t) (k : Nat) : (c.expected k).Nodup :=
  Roster.nodup_toList _

/-- The complete items of a symbol that begin in one set and end in set
    `k`. -/
def completed (c : Chart t) (k : Nat) (s : SymbolId) (origin : Nat) : List ItemRef :=
  ((c.setAt k).select fun it =>
      it.origin == origin && t.isComplete it && t.lhs? it.rule == some s).map
    fun found => ⟨k, found.2⟩

/-- The symbols with complete items that begin in one set and end in set `k`. -/
def completedSymbols (c : Chart t) (k origin : Nat) : Std.TreeSet SymbolId :=
  let complete := (c.setAt k).items.filter fun it => it.origin == origin && t.isComplete it
  .ofList (complete.filterMap (t.lhs? ·.rule)) compare

/-- A symbol is among the completed ones exactly if it has complete items. -/
theorem contains_completedSymbols (c : Chart t) (k : Nat) (s : SymbolId) (origin : Nat) :
    (c.completedSymbols k origin).contains s = !(c.completed k s origin).isEmpty := by
  rw [Bool.eq_iff_iff, Bool.not_eq_true', List.isEmpty_eq_false_iff, completed, Ne,
    List.map_eq_nil_iff, StateSet.select_eq_nil_iff]
  simp [completedSymbols, and_assoc]

end Chart

end Scannerless
