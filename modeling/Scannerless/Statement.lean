import Scannerless.Text.Alphanumeric
import Scannerless.Text.Blank

/-!
# Statements

The statements of a grammar as they are written, before they become rules.
The elements of right sides and the values of adverbs keep their spelling, and
each part carries the byte offset it was written at.

## Main definitions

- `Quantifier` — how often an element of a right side may occur.
- `RhsItem` — an element with its quantifier; `RhsItem.parse` reads one.
- `Adverb`, `Alternative` — a right side and what is said about it.
- `Statement` — the six kinds of statements.
-/

namespace Scannerless

open Text

/-- How often an element occurs. -/
inductive Quantifier where
  | one
  | optional
  | star
  | plus
  deriving DecidableEq, Repr

def Quantifier.ofChar? : Char → Option Quantifier
  | '?' => some .optional
  | '*' => some .star
  | '+' => some .plus
  | _ => none

/-- The character of a quantifier, none for a single occurrence. -/
def Quantifier.toChars : Quantifier → List Char
  | .one => []
  | .optional => ['?']
  | .star => ['*']
  | .plus => ['+']

/-- An element of a right side: its spelling, its quantifier and where it was
    written. -/
structure RhsItem where
  element : String
  quantifier : Quantifier
  offset : Nat
  deriving DecidableEq, Repr

/-- Whether a spelling that begins with a quote lacks the quote at its end. -/
def isOpenLiteral : List Char → Bool
  | [] => false
  | q :: cs => (q == '\'' || q == '"') && cs.getLast? != some q

/-- Whether an element can end in a character. -/
def endsElement (c : Char) : Bool :=
  c == ']' || c == '\'' || c == '"' || c == '>' || isNameChar c

/-- Splits the quantifier off the end of an element. A last character that
    could be one is part of the element if what precedes it is not complete. -/
def RhsItem.parse (text : String) : RhsItem :=
  let item := trimChars text.toList
  let body := item.dropLast
  match item.getLast?.bind Quantifier.ofChar? with
  | some quantifier =>
    if body.getLast?.any endsElement && !isOpenLiteral body then
      ⟨String.ofList body, quantifier, 0⟩
    else ⟨String.ofList item, .one, 0⟩
  | none => ⟨String.ofList item, .one, 0⟩

/-- A name with a value, said about an alternative or about the whole
    grammar. -/
structure Adverb where
  name : String
  value : String
  offset : Nat
  deriving DecidableEq, Repr

structure Alternative where
  rhs : List RhsItem
  adverbs : List Adverb
  offset : Nat
  deriving DecidableEq, Repr

/-- The right side that consists of the given elements, without adverbs. -/
def Alternative.ofItems (items : List String) : Alternative :=
  ⟨items.map RhsItem.parse, [], 0⟩

def Alternative.withAdverb (a : Alternative) (name value : String) : Alternative :=
  { a with adverbs := a.adverbs ++ [⟨name, value, 0⟩] }

inductive Statement where
  /-- The symbol that a whole input is. -/
  | start (symbol : String) (offset : Nat)
  /-- The action of rules that name none. -/
  | default (adverbs : List Adverb) (offset : Nat)
  /-- An element that may stand between lexemes. -/
  | discard (element : String) (offset : Nat)
  /-- How lexemes are matched. -/
  | lexemeDefault (adverbs : List Adverb) (offset : Nat)
  /-- Rules over lexemes; tiers are listed from the tightest on. -/
  | structural (lhs : String) (tiers : List (List Alternative)) (offset : Nat)
  /-- Rules over characters. -/
  | lexical (lhs : String) (alternatives : List Alternative) (offset : Nat)
  deriving DecidableEq, Repr

namespace Statement

def offset : Statement → Nat
  | .start _ offset | .default _ offset | .discard _ offset | .lexemeDefault _ offset
  | .structural _ _ offset | .lexical _ _ offset => offset

def alternative (lhs : String) (a : Alternative) : Statement :=
  .structural lhs [[a]] 0

def rule (lhs : String) (items : List String) : Statement :=
  alternative lhs (Alternative.ofItems items)

/-- A structural rule over the given elements with an action. -/
def ruleAction (lhs : String) (items : List String) (action : String) : Statement :=
  alternative lhs ((Alternative.ofItems items).withAdverb "action" action)

/-- A structural definition in tiers, listed from the tightest on. -/
def prioritized (lhs : String) (tiers : List (List Alternative)) : Statement :=
  .structural lhs tiers 0

def lexeme (name : String) (items : List String) : Statement :=
  .lexical name [Alternative.ofItems items] 0

/-- An element that may stand between lexemes. -/
def discarded (element : String) : Statement :=
  .discard element 0

/-- The symbol that a whole input is. -/
def startAt (symbol : String) : Statement :=
  .start symbol 0

def defaultAction (action : String) : Statement :=
  .default [⟨"action", action, 0⟩] 0

/-- Whether only the longest lexemes count. -/
def longestMatch (on : Bool) : Statement :=
  .lexemeDefault [⟨"latm", if on then "1" else "0", 0⟩] 0

end Statement

end Scannerless
