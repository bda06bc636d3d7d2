import Scannerless.Grammar
import Scannerless.Text.Indexed
import Scannerless.Text.Quoted

/-!
# Actions

A parser binds functions to the names of actions. A function gets the values
of a rule's children and the place where the rule applies.

## Main definitions

- `RuleContext` — where an action is applied.
- `Registry` — functions by name; `Registry.bind`, `Registry.find?`.
-/

namespace Scannerless

open Text

/-- Where an action is applied: the rule and the span of its match in bytes,
    without what is discarded in front. -/
structure RuleContext where
  grammar : Grammar
  input : Indexed
  rule : Rule
  start : Nat
  stop : Nat

namespace RuleContext

/-- The left symbol of the rule as the author wrote it. -/
def name (c : RuleContext) : String :=
  c.rule.name

/-- The rule by the names of its symbols. -/
def ruleText (c : RuleContext) : String :=
  c.grammar.ruleText c.rule

/-- The text that the rule matches. -/
def text (c : RuleContext) : String :=
  c.input.between c.start c.stop

end RuleContext

/-- Functions by name, each name once. -/
structure Registry (V : Type) where
  actions : List (String × (RuleContext → List V → V))

namespace Registry

variable {V : Type}

def empty : Registry V :=
  ⟨[]⟩

/-- Binds a function to a name, in place of the one bound before. -/
def bind (r : Registry V) (name : String) (action : RuleContext → List V → V) : Registry V :=
  ⟨(name, action) :: r.actions.filter (·.1 != name)⟩

def find? (r : Registry V) (name : String) : Option (RuleContext → List V → V) :=
  r.actions.lookup name

theorem find?_bind_self (r : Registry V) (name : String) (f : RuleContext → List V → V) :
    (r.bind name f).find? name = some f := by
  simp [find?, bind]

/-- Binding a name changes no other one. -/
theorem find?_bind_of_ne (r : Registry V) {name other : String} (h : other ≠ name)
    (f : RuleContext → List V → V) : (r.bind name f).find? other = r.find? other := by
  have ne : (other == name) = false := by simpa using h
  simp only [find?, bind, List.lookup_cons, ne]
  induction r.actions with
  | nil => rfl
  | cons entry rest ih =>
    obtain ⟨key, action⟩ := entry
    rw [List.lookup_cons, List.filter_cons]
    by_cases same : key = name
    · simp [same, ih, ne]
    · simp [same, List.lookup_cons, ih]

def contains (r : Registry V) (name : String) : Bool :=
  (r.find? name).isSome

def size (r : Registry V) : Nat :=
  r.actions.length

def isEmpty (r : Registry V) : Bool :=
  r.actions.isEmpty

def names (r : Registry V) : List String :=
  (r.actions.map (·.1)).mergeSort fun a b => a ≤ b

/-- The names in ascending order with the name of the type. -/
def debug (r : Registry V) : String :=
  "ActionRegistry \x7b actions: [" ++ ", ".intercalate (r.names.map quoteText) ++ "] \x7d"

end Registry

end Scannerless
