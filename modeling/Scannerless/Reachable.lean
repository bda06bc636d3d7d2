import Scannerless.Recognition

/-!
# Items of a forest

The items that take part in some reading of an input are those that can be
reached from the complete items of the start symbol through sources.

## Main definitions

- `Recognition.reachable` — these items in the order of the chart.
- `Entry.describe` — an item with the number of its sources.
-/

namespace Scannerless

/-- The items that a source refers to. -/
def Source.refs : Source → List ItemRef
  | .completed source trigger => [source, trigger]
  | .scanned source _ => [source]

/-- An item with the number of its sources. -/
def Entry.describe (e : Entry) : String :=
  "Item(rule " ++ toString e.item.rule ++ " dot " ++ toString e.item.dot ++ " from "
    ++ toString e.item.origin ++ ") #bp: " ++ toString e.sources.size

namespace Chart

variable {t : RuleTable}

/-- One mark for each item of a chart. -/
abbrev Marks := Array (Array Bool)

def noMarks (c : Chart t) : Marks :=
  c.sets.map fun set => Array.replicate set.size false

def isMarked (marks : Marks) (ref : ItemRef) : Bool :=
  (marks.getD ref.set #[]).getD ref.index false

def mark (marks : Marks) (ref : ItemRef) : Marks :=
  marks.modify ref.set fun set => set.setIfInBounds ref.index true

/-- The number of references to items that sources hold. -/
def numRefs (c : Chart t) : Nat :=
  c.sets.foldl
    (fun n set =>
      set.entries.foldl (fun n e => n + (e.sources.toList.flatMap Source.refs).length) n)
    0

/-- Marks the pending items and all items that their sources lead to, in
    `steps` steps at most. -/
def markReachable (c : Chart t) : (steps : Nat) → List ItemRef → Marks → Marks
  | 0, _, marks => marks
  | _ + 1, [], marks => marks
  | steps + 1, ref :: pending, marks =>
    if isMarked marks ref then c.markReachable steps pending marks
    else
      let refs :=
        match c.entry? ref with
        | some e => e.sources.toList.flatMap Source.refs
        | none => []
      c.markReachable steps (refs ++ pending) (mark marks ref)

def addresses (c : Chart t) : List ItemRef :=
  (List.range c.sets.size).flatMap fun k => (List.range (c.setAt k).size).map fun i => ⟨k, i⟩

end Chart

/-- The items that can be reached from the complete items of the start symbol,
    with their addresses, set by set. Each reference is followed once. -/
def Recognition.reachable (r : Recognition) : List (ItemRef × Entry) :=
  let c := r.run.chart
  let marks :=
    c.markReachable (r.run.roots.length + c.numRefs + 1) r.run.roots c.noMarks
  (c.addresses.filter (Chart.isMarked marks)).filterMap fun ref =>
    (c.entry? ref).map fun e => (ref, e)

end Scannerless
