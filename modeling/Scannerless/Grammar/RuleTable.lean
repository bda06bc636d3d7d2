import Scannerless.Grammar.Rule

/-!
# Rule tables

The rules of one level of a grammar with what is asked of them again and
again: the rules of a symbol, and the symbols that derive the empty string.

## Main definitions

- `RuleTable.ofRules` — indexes a list of rules.
- `RuleTable.rulesFor`, `RuleTable.isNullable` — the two indexes.
- `RuleTable.dotted` — the number of places inside and around right sides.

## Main statements

- `RuleTable.mem_rulesFor_ofRules` — the rules of a symbol are those with it on
  their left.
-/

namespace Scannerless

/-- Rules with the rules of each symbol in ascending order and with the
    symbols that derive the empty string. -/
structure RuleTable where
  rules : Array Rule
  byLhs : Array (List RuleId)
  nullable : Array Bool

namespace RuleTable

/-- One pass over the rules: the left symbol of a rule is marked if all
    symbols of its right side are. -/
def markNullable (rules : Array Rule) (marks : Array Bool) : Array Bool :=
  rules.foldl
    (fun marks r =>
      if r.rhs.all fun s => marks.getD s false then marks.setIfInBounds r.lhs true else marks)
    marks

/-- Passes over the rules until nothing changes, `rounds` times at most. -/
def nullableFrom (rules : Array Rule) : (rounds : Nat) → Array Bool → Array Bool
  | 0, marks => marks
  | rounds + 1, marks =>
    let next := markNullable rules marks
    if next == marks then marks else nullableFrom rules rounds next

/-- The symbols below `numSymbols` that derive the empty string. Each pass
    that changes something marks one more symbol. -/
def nullableSymbols (rules : Array Rule) (numSymbols : Nat) : Array Bool :=
  nullableFrom rules numSymbols (Array.replicate numSymbols false)

/-- The rules of each symbol below `numSymbols`. -/
def indexByLhs (rules : Array Rule) (numSymbols : Nat) : Array (List RuleId) :=
  Array.ofFn fun (s : Fin numSymbols) =>
    (List.range rules.size).filter fun id => (rules[id]?.any fun r => r.lhs == s.val)

/-- The table of a list of rules over the symbols below `numSymbols`. -/
def ofRules (rules : Array Rule) (numSymbols : Nat) : RuleTable :=
  ⟨rules, indexByLhs rules numSymbols, nullableSymbols rules numSymbols⟩

def rule? (t : RuleTable) (id : RuleId) : Option Rule :=
  t.rules[id]?

def rhs (t : RuleTable) (id : RuleId) : List SymbolId :=
  match t.rules[id]? with
  | some r => r.rhs
  | none => []

/-- The rules of a symbol, ascending. -/
def rulesFor (t : RuleTable) (s : SymbolId) : List RuleId :=
  t.byLhs.getD s []

/-- Whether a symbol has rules in the table, that is, whether it is no
    terminal of it. -/
def hasRules (t : RuleTable) (s : SymbolId) : Bool :=
  !(t.rulesFor s).isEmpty

def isNullable (t : RuleTable) (s : SymbolId) : Bool :=
  t.nullable.getD s false

/-- The number of pairs of a rule and a place in its right side, its two ends
    included. -/
def dotted (t : RuleTable) : Nat :=
  t.rules.foldl (fun n r => n + (r.rhs.length + 1)) 0

/-- The rules of a symbol are those with the symbol on their left. -/
theorem mem_rulesFor_ofRules {rules : Array Rule} {numSymbols : Nat} {s : SymbolId}
    {id : RuleId} :
    id ∈ (ofRules rules numSymbols).rulesFor s ↔
      s < numSymbols ∧ ∃ r, rules[id]? = some r ∧ r.lhs = s := by
  by_cases bound : s < numSymbols
  · have row : (ofRules rules numSymbols).rulesFor s =
        (List.range rules.size).filter fun id => rules[id]?.any fun r => r.lhs == s := by
      simp [rulesFor, ofRules, indexByLhs, bound]
    rw [row, List.mem_filter, List.mem_range]
    constructor
    · rintro ⟨_, found⟩
      cases hr : rules[id]? with
      | none => simp [hr] at found
      | some r => exact ⟨bound, r, rfl, by simpa [hr] using found⟩
    · rintro ⟨_, r, hr, rfl⟩
      refine ⟨?_, by simp [hr]⟩
      obtain ⟨h, _⟩ := Array.getElem?_eq_some_iff.mp hr
      exact h
  · have row : (ofRules rules numSymbols).rulesFor s = [] := by
      simp [rulesFor, ofRules, indexByLhs, bound]
    simp [row, bound]

/-- The rules of a symbol are listed in ascending order, each once. -/
theorem sorted_rulesFor_ofRules (rules : Array Rule) (numSymbols : Nat) (s : SymbolId) :
    ((ofRules rules numSymbols).rulesFor s).Pairwise (· < ·) := by
  by_cases bound : s < numSymbols
  · have row : (ofRules rules numSymbols).rulesFor s =
        (List.range rules.size).filter fun id => rules[id]?.any fun r => r.lhs == s := by
      simp [rulesFor, ofRules, indexByLhs, bound]
    rw [row]
    exact List.pairwise_lt_range.filter _
  · have row : (ofRules rules numSymbols).rulesFor s = [] := by
      simp [rulesFor, ofRules, indexByLhs, bound]
    simp [row]

end RuleTable

end Scannerless
