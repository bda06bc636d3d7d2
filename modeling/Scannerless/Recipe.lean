import Scannerless.Registry
import Scannerless.Value

/-!
# Ready-made actions

Actions on values that a parser can be given without writing functions.

## Main definitions

- `Recipe` — the actions.
- `Recipe.apply` — the value an action makes at a place from its arguments.
-/

namespace Scannerless

/-- What an action makes of its arguments. -/
inductive Recipe where
  | argument (index : Nat)
  | constant (value : Value)
  /-- The list of the arguments. -/
  | list
  /-- The list of the arguments behind the name of the action. -/
  | tagged
  | count
  | matchedText
  /-- The name, the span and the text of the match. -/
  | span
  /-- The rule with its rank. -/
  | ruleText
  /-- The arguments in parentheses. -/
  | join
  /-- The first argument as an integer. -/
  | integer
  /-- The sum of the arguments that are integers, modulo 2^64. -/
  | sum
  | number
  /-- The opposite of the second argument. -/
  | negate
  | add
  | subtract
  | multiply
  | divide
  | power

namespace Recipe

/-- An argument, neutral if it is missing. -/
def arg (arguments : List Value) (index : Nat) : Value :=
  arguments.getD index .undefined

/-- An argument as a float, no number if it has none. -/
def float (arguments : List Value) (index : Nat) : Float :=
  (arg arguments index).asFloat?.getD (0.0 / 0.0)

/-- The result of an operation on the first and the third argument, an
    operator standing between them. -/
def binary (op : Float → Float → Float) (arguments : List Value) : Value :=
  .float (op (float arguments 0) (float arguments 2))

/-- The value that an action bound to `name` makes of its arguments at a
    place. -/
def apply (name : String) (c : RuleContext) (arguments : List Value) : Recipe → Value
  | .argument index => arg arguments index
  | .constant value => value
  | .list => .list arguments
  | .tagged => .list (.text name :: arguments)
  | .count => .int (Int64.ofNat arguments.length)
  | .matchedText => .text c.text
  | .span => .text (c.name ++ ":" ++ toString c.start ++ "-" ++ toString c.stop ++ ":" ++ c.text)
  | .ruleText => .text (c.ruleText ++ " [rank " ++ toString c.rule.rank ++ "]")
  | .join => .text ("(" ++ " ".intercalate (arguments.map Value.display) ++ ")")
  | .integer =>
    match (arg arguments 0).asInteger? with
    | some n => .int n
    | none => .undefined
  | .sum => .int ((arguments.filterMap Value.asInteger?).foldl (· + ·) 0)
  | .number => .float (float arguments 0)
  | .negate => .float (-float arguments 1)
  | .add => binary (· + ·) arguments
  | .subtract => binary (· - ·) arguments
  | .multiply => binary (· * ·) arguments
  | .divide => binary (· / ·) arguments
  | .power => binary Float.pow arguments

end Recipe

/-- Binds a ready-made action to a name. -/
def Registry.bindRecipe (r : Registry Value) (name : String) (recipe : Recipe) :
    Registry Value :=
  r.bind name fun c arguments => recipe.apply name c arguments

end Scannerless
