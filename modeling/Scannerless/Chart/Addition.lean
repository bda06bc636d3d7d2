import Scannerless.Chart

/-!
# Additions within a limit

A chart grows by one addition after the other. Where the number of its items is limited, an
addition is refused if it brings an item too many. What adds a source to an item that is there
is never refused.

Every item of a set that is closed makes its additions in turn, and so does every item that is
moved over a token. They are known before the first of them is made.

## Main definitions

- `Addition`, `Chart.apply`, `Chart.applyAll` — additions and what they do.
- `Chart.accept`, `Chart.acceptAll` — additions within a limit.
- `Chart.predictWithin`, `Chart.closeWithin`, `Chart.scanWithin` — the same steps as without a
  limit, addition by addition.
-/

namespace Scannerless

/-- An item for a set, with a source if it was not predicted. -/
structure Addition where
  place : Nat
  item : Item
  source : Option Source
  deriving DecidableEq, Repr

/-- An item too many: the limit on items, and the set that the item was for. -/
structure Excess where
  limit : Nat
  place : Nat
  deriving DecidableEq, Repr

/-- Whether an item is in a set. -/
def StateSet.has {t : RuleTable} (set : StateSet t) (it : Item) : Bool :=
  (set.roster.index? it).isSome

namespace Chart

variable {t : RuleTable}

def item? (c : Chart t) (ref : ItemRef) : Option Item :=
  (c.setAt ref.set).item? ref.index

def apply (c : Chart t) (a : Addition) : Chart t :=
  c.add a.place a.item a.source

def applyAll (c : Chart t) (as : List Addition) : Chart t :=
  as.foldl apply c

/-- Makes an addition, unless it brings an item too many. -/
def accept (limit : Option Nat) (c : Chart t) (a : Addition) : Except Excess (Chart t) :=
  match limit with
  | none => .ok (c.apply a)
  | some n =>
    if (c.setAt a.place).has a.item || c.numItems < n then .ok (c.apply a)
    else .error ⟨n, a.place⟩

/-- Makes additions one after the other, up to the first that is refused. -/
def acceptAll (limit : Option Nat) (c : Chart t) (as : List Addition) : Except Excess (Chart t) :=
  as.foldlM (accept limit) c

/-! ### Prediction -/

def predictions (t : RuleTable) (k : Nat) (s : SymbolId) : List Addition :=
  (t.rulesFor s).map fun id => ⟨k, ⟨id, 0, k⟩, none⟩

/-- Adds the rules of a symbol to a set, within a limit. -/
def predictWithin (limit : Option Nat) (c : Chart t) (k : Nat) (s : SymbolId) :
    Except Excess (Chart t) :=
  c.acceptAll limit (predictions t k s)

/-! ### Closing a set -/

namespace Closing

/-- The additions that the item at index `i` of set `k` makes when it is done. -/
def additions (k i : Nat) (w : Closing t) : List Addition :=
  match w.chart.item? ⟨k, i⟩ with
  | none => []
  | some it =>
    match t.next? it with
    | some s =>
      if t.hasRules s then
        predictions t k s ++ (w.nulled.filter (·.1 == s)).map fun trigger =>
          ⟨k, it.advanced, some (.completed ⟨k, i⟩ ⟨k, trigger.2⟩)⟩
      else []
    | none =>
      match t.lhs? it.rule with
      | some s =>
        let waiting := (w.chart.setAt it.origin).waitingFor s
        (if it.origin == k then waiting.filter (·.2 < i) else waiting).map fun found =>
          ⟨k, found.1.advanced, some (.completed ⟨it.origin, found.2⟩ ⟨k, i⟩)⟩
      | none => []

/-- The symbols completed empty so far, the item at index `i` of set `k` included. -/
def nulledWith (k i : Nat) (w : Closing t) : List (SymbolId × Nat) :=
  match w.chart.item? ⟨k, i⟩ with
  | none => w.nulled
  | some it =>
    match t.next? it, t.lhs? it.rule with
    | none, some s => if it.origin == k then w.nulled ++ [(s, i)] else w.nulled
    | _, _ => w.nulled

/-- Does what the item at index `i` of set `k` calls for, within a limit. -/
def stepWithin (limit : Option Nat) (k i : Nat) (w : Closing t) : Except Excess (Closing t) :=
  let nulled := w.nulledWith k i
  let additions := w.additions k i
  (w.chart.acceptAll limit additions).map fun chart => ⟨chart, nulled⟩

/-- Goes through the items of set `k` from index `i` on while it grows, within a limit, and
    through `steps` items at most. -/
def runWithin (limit : Option Nat) (k : Nat) :
    (steps i : Nat) → Closing t → Except Excess (Closing t)
  | 0, _, w => .ok w
  | steps + 1, i, w =>
    if i < (w.chart.setAt k).size then
      match w.stepWithin limit k i with
      | .ok w => runWithin limit k steps (i + 1) w
      | .error e => .error e
    else .ok w

end Closing

/-- Predicts and completes until set `k` does not grow, within a limit. -/
def closeWithin (limit : Option Nat) (c : Chart t) (k : Nat) : Except Excess (Chart t) :=
  (Closing.runWithin limit k (t.dotted * (k + 1)) 0 ⟨c, []⟩).map (·.chart)

/-! ### Reading tokens -/

def scanAdditions (c : Chart t) (k start : Nat) (found : List (SymbolId × Nat)) :
    List Addition :=
  found.flatMap fun f =>
    ((c.setAt k).waitingFor f.1).map fun w =>
      ⟨f.2, w.1.advanced, some (.scanned ⟨k, w.2⟩ start)⟩

/-- Moves the items of set `k` that wait for the token `s` into set `j`, within a limit, the
    token beginning at `start`. -/
def scanWithin (limit : Option Nat) (c : Chart t) (k : Nat) (s : SymbolId) (start j : Nat) :
    Except Excess (Chart t) :=
  c.acceptAll limit (c.scanAdditions k start [(s, j)])

end Chart

end Scannerless
