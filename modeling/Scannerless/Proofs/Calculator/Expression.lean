import Scannerless.Calculator

/-!
# Expressions

What a calculator computes with, apart from any grammar: tokens, the trees that are written with
them, and the values of these trees. A tree is well shaped if its operands bind tightly enough for
their places, so that no parentheses are missing.

## Main definitions

- `Calculator.Token` — numbers, names and marks.
- `Calculator.Operator` — the operators that stand between two operands.
- `Calculator.Expr` — the trees; `Expr.tokens`, `Expr.Shaped`.
- `Calculator.Expr.value` — the value of a tree.
-/

namespace Scannerless.Calculator

/-! ### Tokens -/

/-- A part of an expression that cannot be divided. -/
inductive Token where
  | number (text : String)
  | name (text : String)
  | mark (c : Char)
  deriving DecidableEq, Repr

def Token.text : Token → String
  | .number text | .name text => text
  | .mark c => String.ofList [c]

/-- A character that names are made of. -/
def isNameChar (c : Char) : Bool :=
  c.isLower || c == '_'

/-- The text of a number: digits, and perhaps more of them behind a point. -/
def IsNumber (text : List Char) : Prop :=
  ∃ whole, whole ≠ [] ∧ (∀ c ∈ whole, c.isDigit = true) ∧
    (text = whole ∨ ∃ fraction, fraction ≠ [] ∧ (∀ c ∈ fraction, c.isDigit = true) ∧
      text = whole ++ '.' :: fraction)

/-- The text of a name. -/
def IsName (text : List Char) : Prop :=
  text ≠ [] ∧ ∀ c ∈ text, isNameChar c = true

def marks : List Char :=
  ['(', ')', '^', '-', '*', '/', '%', '+']

/-- A token that has the text of its kind. -/
def Token.Proper : Token → Prop
  | .number text => IsNumber text.toList
  | .name text => IsName text.toList
  | .mark c => c ∈ marks

/-! ### Operators -/

/-- The operators that stand between two operands. -/
inductive Operator where
  | power
  | times
  | divide
  | modulo
  | plus
  | minus
  deriving DecidableEq, Repr

namespace Operator

def mark : Operator → Char
  | power => '^'
  | times => '*'
  | divide => '/'
  | modulo => '%'
  | plus => '+'
  | minus => '-'

/-- How loosely an operator binds. Atoms have the level 0, and the sign has the level 2. -/
def level : Operator → Nat
  | power => 1
  | times | divide | modulo => 3
  | plus | minus => 4

/-- The loosest level of a left operand. -/
def left : Operator → Nat
  | power => 0
  | times | divide | modulo => 3
  | plus | minus => 4

/-- The loosest level of a right operand. -/
def right : Operator → Nat
  | power => 1
  | times | divide | modulo => 2
  | plus | minus => 3

/-- What an operator computes. -/
def apply : Operator → Float → Float → Float
  | power => Float.pow
  | times => (· * ·)
  | divide => (· / ·)
  | modulo => Decimal.remainder
  | plus => (· + ·)
  | minus => (· - ·)

def all : List Operator :=
  [power, times, divide, modulo, plus, minus]

/-- An operator is told by its mark. -/
theorem mark_injective : Function.Injective mark := by
  intro op op' h
  cases op <;> cases op' <;> first | rfl | exact absurd h (by decide)

/-- The operators of sums and products take operands from the left. -/
theorem operands_of_loose : ∀ op : Operator, 3 ≤ op.level →
    op.left = op.level ∧ op.right + 1 = op.level := by
  intro op
  cases op <;> decide

end Operator

/-! ### Trees -/

/-- The tree of an expression. -/
inductive Expr where
  | number (text : String)
  | group (e : Expr)
  | call (name : String) (argument : Expr)
  | negate (e : Expr)
  | binary (op : Operator) (left right : Expr)
  deriving DecidableEq, Repr

namespace Expr

/-- How loosely the operator on top binds. -/
def level : Expr → Nat
  | number _ | group _ | call _ _ => 0
  | negate _ => 2
  | binary op _ _ => op.level

/-- Operands bind tightly enough for their places. -/
def Shaped : Expr → Prop
  | number text => IsNumber text.toList
  | group e => e.Shaped
  | call name e => IsName name.toList ∧ e.Shaped
  | negate e => e.Shaped ∧ e.level ≤ 2
  | binary op a b => (a.Shaped ∧ a.level ≤ op.left) ∧ b.Shaped ∧ b.level ≤ op.right

/-- The tokens that an expression is written with. -/
def tokens : Expr → List Token
  | number text => [.number text]
  | group e => .mark '(' :: e.tokens ++ [.mark ')']
  | call name e => .name name :: .mark '(' :: e.tokens ++ [.mark ')']
  | negate e => .mark '-' :: e.tokens
  | binary op a b => a.tokens ++ .mark op.mark :: b.tokens

theorem level_le_four (e : Expr) : e.level ≤ 4 := by
  cases e with
  | binary op a b =>
    rw [level]
    cases op <;> decide
  | _ => simp [level]

theorem tokens_ne_nil (e : Expr) : e.tokens ≠ [] := by
  cases e <;> simp [tokens]

theorem head?_tokens_append (e : Expr) (rest : List Token) :
    (e.tokens ++ rest).head? = e.tokens.head? := by
  obtain ⟨t, ts, hts⟩ := List.exists_cons_of_ne_nil e.tokens_ne_nil
  rw [hts]
  rfl

end Expr

/-! ### Values -/

/-- A value as an operand, which is no number if the value is none. -/
def operand (v : Value) : Float :=
  v.asFloat?.getD (0.0 / 0.0)

/-- The functions that have a name. -/
def function? : String → Option (Float → Float)
  | "sqrt" => some Float.sqrt
  | "sin" => some Float.sin
  | "cos" => some Float.cos
  | "exp" => some Float.exp
  | "ln" => some Float.log
  | "abs" => some Float.abs
  | _ => none

/-- The value of an expression. Functions without a known name have none. -/
def Expr.value : Expr → Value
  | number text => .float (operand (.text text))
  | group e => e.value
  | call name e =>
    match function? name with
    | some f => .float (f (operand e.value))
    | none => .undefined
  | negate e => .float (-operand e.value)
  | binary op a b => .float (op.apply (operand a.value) (operand b.value))

end Scannerless.Calculator
