import Scannerless.Loop
import Scannerless.Recognition

/-!
# Readings of a forest

The chart of a recognized input holds all readings of it. One of them is
chosen. Among the complete items of the start symbol the one with the highest
rank counts, then the rule declared first, then the longest span. Inside a
rule, from its last symbol to its first, the child with the highest rank
counts, then the rule declared first, then the longest child.

Children that the mask of a rule drops are left out, and a child with a spliced
rule is replaced by its own children: what is left are the leaves of a rule.

## Main definitions

- `Recognition.chooseRoot`, `Recognition.choose` — the choices.
- `Recognition.children` — what the places of a rule were matched by.
- `Recognition.leaves` — the children without spliced rules.

## Main statements

- `mem_of_mostPreferred` — what is chosen is one of the elements.
-/

namespace Scannerless

/-- What choices are ordered by, the least being chosen. -/
abbrev Preference := Int × Int × Int

/-- The order of preferences: the first differing part decides. -/
def Preference.before (a b : Preference) : Bool :=
  a.1 < b.1 || (a.1 == b.1 && (a.2.1 < b.2.1 || (a.2.1 == b.2.1 && a.2.2 < b.2.2)))

/-- The first of the elements whose preference no other one comes before. -/
def mostPreferred {α : Type} (preference : α → Preference) : List α → Option α
  | [] => none
  | x :: xs =>
    some (xs.foldl (fun best y => if (preference y).before (preference best) then y else best) x)

/-- What is chosen is one of the elements. -/
theorem mem_of_mostPreferred {α : Type} {preference : α → Preference} {xs : List α} {x : α}
    (h : mostPreferred preference xs = some x) : x ∈ xs := by
  cases xs with
  | nil => simp [mostPreferred] at h
  | cons y ys =>
    simp only [mostPreferred, Option.some.injEq] at h
    subst h
    induction ys generalizing y with
    | nil => simp
    | cons z zs ih =>
      rw [List.foldl_cons]
      split
      · exact List.mem_cons_of_mem y (ih z)
      · rcases List.mem_cons.mp (ih y) with same | later
        · rw [same]
          exact List.mem_cons_self
        · exact List.mem_cons_of_mem y (List.mem_cons_of_mem z later)

/-- What a place of a rule was matched by. -/
inductive Child where
  /-- A token with its span. -/
  | lexeme (start stop : Nat)
  /-- The rule of a complete item. -/
  | node (item : ItemRef)
  deriving DecidableEq, Repr

/-- What is left to do for the leaves of a rule. -/
inductive Pending where
  /-- The children of the rule of an item stand here. -/
  | expand (item : ItemRef)
  /-- A leaf stands here. -/
  | emit (leaf : Child)
  deriving DecidableEq, Repr

namespace Recognition

def entry? (r : Recognition) (ref : ItemRef) : Option Entry :=
  r.run.chart.entry? ref

/-- The number of the rule of an item. -/
def ruleId (r : Recognition) (ref : ItemRef) : RuleId :=
  match r.entry? ref with
  | some e => e.item.rule
  | none => 0

def rule? (r : Recognition) (ref : ItemRef) : Option Rule :=
  r.grammar.structural.rule? (r.ruleId ref)

def rank (r : Recognition) (ref : ItemRef) : Int :=
  match r.rule? ref with
  | some rule => rule.rank
  | none => 0

/-- Prefers the highest rank, then the rule declared first, then the longest
    span. -/
def rootPreference (r : Recognition) (root : ItemRef) : Preference :=
  (-r.rank root, r.ruleId root, -(root.set : Int))

/-- Prefers the highest rank of the child, then its rule declared first, then
    the longest child; among tokens the longest. -/
def sourcePreference (r : Recognition) : Source → Preference
  | .completed source trigger => (-r.rank trigger, r.ruleId trigger, source.set)
  | .scanned _ start => (0, 0, start)

def chooseRoot (r : Recognition) : Option ItemRef :=
  mostPreferred r.rootPreference r.run.roots

def choose (r : Recognition) (e : Entry) : Option Source :=
  mostPreferred r.sourcePreference e.sources.toList

/-- The child that a source moved over, the move ending in set `stop`. -/
def child (stop : Nat) : Source → Child
  | .completed _ trigger => .node trigger
  | .scanned _ start => .lexeme start stop

/-- The chosen children of a rule that it keeps, from the item at `cursor`
    leftwards for `steps` symbols at most, in front of `found`. -/
def childrenFrom (r : Recognition) (rule : Rule) :
    (steps : Nat) → (cursor : ItemRef) → (found : List Child) → List Child
  | 0, _, found => found
  | steps + 1, cursor, found =>
    match r.entry? cursor with
    | none => found
    | some e =>
      match r.choose e with
      | none => found
      | some source =>
        let found := if rule.keeps (e.item.dot - 1) then child cursor.set source :: found else found
        r.childrenFrom rule steps source.item found

/-- The chosen children of the rule of an item that the rule keeps, from left
    to right. -/
def children (r : Recognition) (ref : ItemRef) : List Child :=
  match r.entry? ref, r.rule? ref with
  | some e, some rule => r.childrenFrom rule e.item.dot ref []
  | _, _ => []

def isSplice (r : Recognition) (ref : ItemRef) : Bool :=
  (r.rule? ref).any Rule.isSplice

/-- What is to be done for a child: its own children stand in the place of a spliced
    rule. -/
def pendingFor (r : Recognition) : Child → Pending
  | .lexeme start stop => .emit (.lexeme start stop)
  | .node item => if r.isSplice item then .expand item else .emit (.node item)

/-- Does what is on top of a stack, behind the leaves that were found. The children of a
    rule are put onto the stack from right to left. -/
def leavesStep (r : Recognition) :
    List Pending × Array Child → (List Pending × Array Child) ⊕ List Child
  | ([], found) => .inr found.toList
  | (.expand item :: rest, found) =>
    .inl ((r.children item).reverse.foldl (fun rest child => r.pendingFor child :: rest) rest,
      found)
  | (.emit leaf :: rest, found) => .inl (rest, found.push leaf)

/-- The leaves of the rule of an item, from left to right. -/
def leaves (r : Recognition) (ref : ItemRef) : List Child :=
  loop r.leavesStep ([.expand ref], #[])

end Recognition

end Scannerless
