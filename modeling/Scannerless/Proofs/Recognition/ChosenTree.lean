import Scannerless.Proofs.Recognition.Choice

/-!
# The chosen tree of an input

The tree of the chosen root is found by going through chosen sources, from the last symbol of
a rule to the first.

## Main definitions

- `Recognition.followed?` — the trees that are read through chosen sources.
- `Recognition.chosenTree?` — the tree of the chosen root.

## Main statements

- `Recognition.chosen_of_chosenTree?` — the tree that is found is the chosen one.
-/

namespace Scannerless

namespace Recognition

variable {r : Recognition} {next : ItemRef → Option (List Tree)} {fuel stop : Nat}
  {ref : ItemRef} {it : Item} {src : Source} {ts : List Tree} {tree : Tree}

/-- The trees that are read through a source, given those of items. The tree of what the source
    moved over is the last. -/
def readOver? (r : Recognition) (next : ItemRef → Option (List Tree)) (stop : Nat) :
    Source → Option (List Tree)
  | .completed source trigger =>
    (r.run.chart.item? trigger).bind fun child => (next source).bind fun ts =>
      (next trigger).map fun us => ts ++ [.node child.rule child.origin trigger.set us]
  | .scanned source start =>
    ((r.run.chart.item? source).bind r.grammar.structural.next?).bind fun s =>
      (next source).map fun ts => ts ++ [.token s source.set start stop]

/-- The trees that are read through chosen sources, unless this takes more than `fuel` of them
    in a row. -/
def followed? (r : Recognition) : (fuel : Nat) → ItemRef → Option (List Tree)
  | 0, _ => none
  | fuel + 1, ref =>
    (r.run.chart.item? ref).bind fun it =>
      if it.dot = 0 then some []
      else (r.chosen? ref).bind (r.readOver? (r.followed? fuel) ref.set)

/-- The tree of the chosen root. -/
def chosenTree? (r : Recognition) (fuel : Nat) : Option Tree :=
  r.chooseRoot.bind fun root => (r.run.chart.item? root).bind fun it =>
    (r.followed? fuel root).map fun us => .node it.rule it.origin root.set us

/-- What is read through a chosen source is read through chosen sources, if this is so in front
    of it and below it. -/
theorem follows_of_readOver? (hit : r.run.chart.item? ref = some it)
    (hchosen : r.chosen? ref = some src)
    (hnext : ∀ ref' us, next ref' = some us → r.Follows ref' us)
    (h : r.readOver? next ref.set src = some ts) : r.Follows ref ts := by
  cases src with
  | completed source trigger =>
    obtain ⟨child, hchild, h⟩ := Option.bind_eq_some_iff.mp h
    obtain ⟨front, hfront, h⟩ := Option.bind_eq_some_iff.mp h
    obtain ⟨us, hus, rfl⟩ := Option.map_eq_some_iff.mp h
    exact .completed hit hchosen hchild (hnext source front hfront) (hnext trigger us hus)
  | scanned source start =>
    obtain ⟨s, hs, h⟩ := Option.bind_eq_some_iff.mp h
    obtain ⟨w, hw, hs⟩ := Option.bind_eq_some_iff.mp hs
    obtain ⟨front, hfront, rfl⟩ := Option.map_eq_some_iff.mp h
    exact .scanned hit hchosen hw hs (hnext source front hfront)

/-- The trees that are found are read through chosen sources. -/
theorem follows_of_followed? (h : r.followed? fuel ref = some ts) : r.Follows ref ts := by
  induction fuel generalizing ref ts with
  | zero => cases h
  | succ fuel ih =>
    obtain ⟨it, hit, h⟩ := Option.bind_eq_some_iff.mp h
    split at h
    next hdot =>
      obtain rfl := Option.some.inj h
      exact .predicted hit hdot
    next =>
      obtain ⟨src, hchosen, h⟩ := Option.bind_eq_some_iff.mp h
      exact follows_of_readOver? hit hchosen (fun _ _ hnext => ih hnext) h

/-- The tree that is found is the chosen one. -/
theorem chosen_of_chosenTree? (h : r.chosenTree? fuel = some tree) : r.Chosen tree := by
  obtain ⟨root, hroot, h⟩ := Option.bind_eq_some_iff.mp h
  obtain ⟨it, hit, h⟩ := Option.bind_eq_some_iff.mp h
  obtain ⟨us, hus, rfl⟩ := Option.map_eq_some_iff.mp h
  exact ⟨root, it, us, hroot, hit, follows_of_followed? hus, rfl⟩

end Recognition

end Scannerless
