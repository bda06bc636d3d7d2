import Scannerless.CharClass

/-!
# Symbols and rules

Symbols and rules are known by their number. A rule says what its left symbol
may consist of, and what value results.

## Main definitions

- `Symbol` — a name with the part the symbol plays.
- `Action`, `Semantics` — how the value of a rule is made.
- `Rule` — a left symbol, a right side and its semantics.
-/

namespace Scannerless

/-- A symbol is known by its index in the grammar. -/
abbrev SymbolId := Nat

/-- A rule is known by its index in its table. -/
abbrev RuleId := Nat

/-- The part that a symbol plays. -/
inductive SymbolKind where
  /-- It has structural rules. -/
  | nonterminal
  /-- It has lexical rules and is a token of the structural rules, or is
      discarded between tokens. -/
  | lexeme
  /-- It has lexical rules and is used in lexical rules only. -/
  | lexical
  /-- It stands for one character of a class. -/
  | char (cls : CharClass)
  deriving DecidableEq, Repr

structure Symbol where
  name : String
  kind : SymbolKind
  deriving DecidableEq, Repr

/-- How the value of a rule is made from the values of its children. -/
inductive Action where
  /-- By an action that the parser binds to a name. -/
  | named (name : String)
  | first
  /-- Not at all. -/
  | undefined
  | array
  deriving DecidableEq, Repr

def Action.parse (spelling : String) : Action :=
  if spelling == "::first" then .first
  else if spelling == "::undef" then .undefined
  else if spelling == "::array" then .array
  else .named spelling

def Action.display : Action → String
  | .named name => name
  | .first => "::first"
  | .undefined => "::undef"
  | .array => "::array"

/-- What happens to the values of the children of a rule. -/
inductive Semantics where
  /-- An action is applied to them, or the default if none is given. -/
  | apply (action : Option Action)
  /-- They are handed to the rule that used this one, as if they were written
      there. -/
  | splice
  deriving DecidableEq, Repr

/-- A rule. `name` is its left symbol as the author wrote it, `mask` tells
    which places of the right side have values that reach the action, and
    `rank` orders the readings of an ambiguous text. -/
structure Rule where
  lhs : SymbolId
  rhs : List SymbolId
  name : String
  semantics : Semantics
  mask : List Bool
  rank : Int
  deriving DecidableEq, Repr

/-- Whether a rule hands its values to the rule that used it. -/
def Rule.isSplice (r : Rule) : Bool :=
  r.semantics == .splice

/-- Whether the value at a place of the right side reaches the action. -/
def Rule.keeps (r : Rule) (place : Nat) : Bool :=
  r.mask.getD place false

end Scannerless
