import Scannerless.CompileError
import Scannerless.Decimal.Reading
import Scannerless.Grammar.Rule
import Scannerless.Statement

/-!
# Adverbs

What adverbs say about an alternative, about rules without an action and about
lexemes.

## Main definitions

- `RuleAdverbs.read` — the adverbs of an alternative.
- `readDefaultAction` — the adverbs of a default statement.
- `readLongestMatch` — the adverbs of a lexeme default statement.
-/

namespace Scannerless

/-- Which operand of an operator may be an operator of the same tier. -/
inductive Associativity where
  /-- The first one. -/
  | left
  /-- The last one. -/
  | right
  /-- Any, and operators of all tiers. -/
  | group
  deriving DecidableEq, Repr

/-- What adverbs say about an alternative. `separator` stands between the
    items of a sequence, which may end in one unless it is `proper`, and `keep`
    passes the separators on to the action. -/
structure RuleAdverbs where
  action : Option Action
  associativity : Associativity
  rank : Int
  separator : Option (String × Nat)
  proper : Bool
  keep : Bool

/-- The first adverb whose name occurs before, `names` being the names so
    far. -/
def repeatedAdverb? (names : List String) : List Adverb → Option Adverb
  | [] => none
  | a :: rest =>
    if names.contains a.name then some a else repeatedAdverb? (a.name :: names) rest

def requireDistinct (adverbs : List Adverb) : Except Fault Unit :=
  match repeatedAdverb? [] adverbs with
  | some a => .error ⟨.duplicateAdverb a.name, a.offset⟩
  | none => .ok ()

def Adverb.flag (a : Adverb) : Except Fault Bool :=
  if a.value == "0" then .ok false
  else if a.value == "1" then .ok true
  else .error ⟨.flagExpected a.name a.value, a.offset⟩

def Adverb.associativity (a : Adverb) : Except Fault Associativity :=
  if a.value == "left" then .ok .left
  else if a.value == "right" then .ok .right
  else if a.value == "group" then .ok .group
  else .error ⟨.unknownAssociativity a.value, a.offset⟩

/-- The value of an adverb that is an integer of 32 bits. -/
def Adverb.integer (a : Adverb) : Except Fault Int :=
  match Decimal.readInteger? 32 a.value.toList with
  | some n => .ok n
  | none => .error ⟨.integerExpected a.value, a.offset⟩

namespace RuleAdverbs

def initial : RuleAdverbs :=
  ⟨none, .left, 0, none, false, false⟩

def add (sequence : Bool) (r : RuleAdverbs) (a : Adverb) : Except Fault RuleAdverbs :=
  if !sequence && ["separator", "proper", "keep"].contains a.name then
    .error ⟨.sequenceAdverb a.name, a.offset⟩
  else if a.name == "action" then .ok { r with action := some (Action.parse a.value) }
  else if a.name == "assoc" then a.associativity.map fun v => { r with associativity := v }
  else if a.name == "rank" then a.integer.map fun v => { r with rank := v }
  else if a.name == "separator" then .ok { r with separator := some (a.value, a.offset) }
  else if a.name == "proper" then a.flag.map fun v => { r with proper := v }
  else if a.name == "keep" then a.flag.map fun v => { r with keep := v }
  else .error ⟨.unknownAdverb a.name, a.offset⟩

/-- Reads the adverbs of an alternative; those about items are allowed for a
    sequence only. -/
def read (sequence : Bool) (adverbs : List Adverb) : Except Fault RuleAdverbs := do
  requireDistinct adverbs
  adverbs.foldlM (add sequence) initial

end RuleAdverbs

/-- The action of rules that name none, from the adverbs of a statement at an
    offset. -/
def readDefaultAction (adverbs : List Adverb) (offset : Nat) : Except Fault Action := do
  requireDistinct adverbs
  match adverbs with
  | [a] =>
    if a.name == "action" then .ok (Action.parse a.value) else .error ⟨.defaultAdverbs, offset⟩
  | _ => .error ⟨.defaultAdverbs, offset⟩

/-- Whether only the longest lexemes count, from the adverbs of a statement at
    an offset. -/
def readLongestMatch (adverbs : List Adverb) (offset : Nat) : Except Fault Bool := do
  requireDistinct adverbs
  match adverbs with
  | [a] => if a.name == "latm" then a.flag else .error ⟨.lexemeDefaultAdverbs, offset⟩
  | _ => .error ⟨.lexemeDefaultAdverbs, offset⟩

end Scannerless
