import Scannerless.Evaluation
import Scannerless.Statement

/-!
# Phrases of grammar texts

What the parts of a grammar text mean, from tokens to the list of statements,
and the actions that put the parts together. An action whose parts do not fit
gives a phrase without meaning, and so does any phrase with such a part.

## Main definitions

- `Phrase` — the meanings.
- `Phrase.actions` — the actions of the notation's grammar.
-/

namespace Scannerless

/-- What a part of a grammar text means. -/
inductive Phrase where
  | nothing
  | token (text : String)
  /-- A symbol or another element by its spelling. -/
  | element (spelling : String) (offset : Nat)
  | item (item : RhsItem)
  | items (items : List RhsItem)
  | adverb (adverb : Adverb)
  | adverbs (adverbs : List Adverb)
  | alternative (alternative : Alternative)
  | alternatives (alternatives : List Alternative)
  | tiers (tiers : List (List Alternative))
  | statement (statement : Statement)
  | statements (statements : List Statement)
  deriving DecidableEq, Repr

namespace Phrase

instance : Semantic Phrase where
  ofLexeme := .token
  undefined := .nothing
  ofList _ := .nothing

def item? : Phrase → Option RhsItem
  | .item i => some i
  | _ => none

def adverb? : Phrase → Option Adverb
  | .adverb a => some a
  | _ => none

def alternative? : Phrase → Option Alternative
  | .alternative a => some a
  | _ => none

def alternatives? : Phrase → Option (List Alternative)
  | .alternatives alts => some alts
  | _ => none

def statement? : Phrase → Option Statement
  | .statement s => some s
  | _ => none

/-- Puts the parts of a list together, if all of them fit. -/
def gather {α : Type} (part? : Phrase → Option α) (whole : List α → Phrase)
    (parts : List Phrase) : Phrase :=
  match parts.mapM part? with
  | some found => whole found
  | none => .nothing

/-- The quantifier of a token. -/
def quantifier (text : String) : Quantifier :=
  (text.toList.head?.bind Quantifier.ofChar?).getD .one

def start (c : RuleContext) : List Phrase → Phrase
  | [_, _, .element symbol _] => .statement (.start symbol c.start)
  | _ => .nothing

def default (c : RuleContext) : List Phrase → Phrase
  | [_, _, .adverbs said] => .statement (.default said c.start)
  | _ => .nothing

def discard (c : RuleContext) : List Phrase → Phrase
  | [_, _, .element spelling _] => .statement (.discard spelling c.start)
  | _ => .nothing

def lexemeDefault (c : RuleContext) : List Phrase → Phrase
  | [_, _, _, .adverbs said] => .statement (.lexemeDefault said c.start)
  | _ => .nothing

def structural (c : RuleContext) : List Phrase → Phrase
  | [.element lhs _, _, .tiers alts] => .statement (.structural lhs alts c.start)
  | _ => .nothing

def lexical (c : RuleContext) : List Phrase → Phrase
  | [.element lhs _, _, .alternatives alts] => .statement (.lexical lhs alts c.start)
  | _ => .nothing

/-- An alternative. It stands where its first item stands, or after what
    precedes it if it has none. -/
def alternativeOf (c : RuleContext) : List Phrase → Phrase
  | [.items rhs, .adverbs said] =>
    .alternative ⟨rhs, said, (rhs.head?.map (·.offset)).getD c.start⟩
  | _ => .nothing

/-- An item without a quantifier. -/
def single : List Phrase → Phrase
  | [.element spelling offset] => .item ⟨spelling, .one, offset⟩
  | _ => .nothing

/-- An item with a quantifier. -/
def quantified : List Phrase → Phrase
  | [.element spelling offset, .token q] => .item ⟨spelling, quantifier q, offset⟩
  | _ => .nothing

/-- An element that a token spells. -/
def spelled (c : RuleContext) : List Phrase → Phrase
  | [.token text] => .element text c.start
  | _ => .nothing

def adverbOf (c : RuleContext) : List Phrase → Phrase
  | [.token name, _, .token value] => .adverb ⟨name, value, c.start⟩
  | _ => .nothing

/-- The actions of the notation's grammar. -/
def actions : Registry Phrase :=
  ⟨[("statements", fun _ => gather statement? .statements),
    ("start", start),
    ("default", default),
    ("discard", discard),
    ("lexeme_default", lexemeDefault),
    ("structural", structural),
    ("lexical", lexical),
    ("tiers", fun _ => gather alternatives? .tiers),
    ("alternatives", fun _ => gather alternative? .alternatives),
    ("alternative", alternativeOf),
    ("rhs", fun _ => gather item? .items),
    ("item", fun _ => single),
    ("quantified", fun _ => quantified),
    ("spelled", spelled),
    ("adverbs", fun _ => gather adverb? .adverbs),
    ("adverb", adverbOf)]⟩

end Phrase

end Scannerless
