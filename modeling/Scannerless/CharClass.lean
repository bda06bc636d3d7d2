import Scannerless.Text.Blank
import Scannerless.Text.Escape
import Scannerless.Text.Quoted

/-!
# Character classes

Sets of characters, the terminals of lexical rules. A class is written as the
body of a pair of brackets: characters, ranges and shorthands, and a caret in
front for the complement.

## Main definitions

- `CharClass.parse` — reads the body of a class.
- `CharClass.single` — the class of one character.
- `CharClass.contains` — whether a character belongs to a class.
-/

namespace Scannerless

open Text

/-- A part of a class. -/
inductive ClassItem where
  | char (c : Char)
  /-- The characters between two bounds, both included. -/
  | range (low high : Char)
  /-- `s`, `d` or `w` for blanks, digits or name characters, in upper case for
      the others. -/
  | shorthand (letter : Char)
  deriving DecidableEq, Repr

/-- Whether a character belongs to the class that a lower case letter names. -/
def shorthandMatches (letter : Char) (c : Char) : Bool :=
  if letter == 's' then isBlank c
  else if letter == 'd' then c.isDigit
  else isNameChar c

def ClassItem.matches (c : Char) : ClassItem → Bool
  | .char x => x == c
  | .range low high => low ≤ c && c ≤ high
  | .shorthand letter => shorthandMatches letter.toLower c == letter.isLower

/-- A set of characters with the spelling that names it. -/
structure CharClass where
  negated : Bool
  items : List ClassItem
  spelling : String
  deriving DecidableEq, Repr

namespace CharClass

def contains (cls : CharClass) (c : Char) : Bool :=
  cls.items.any (·.matches c) != cls.negated

/-- The class of one character, spelled as that character in quotes. -/
def single (c : Char) : CharClass :=
  ⟨false, [.char c], quoteChar c⟩

/-- The range between two bounds read from a body of `total` characters of
    which `rest` is left. -/
def rangeItem (total : Nat) (low high : Char) (rest : List Char) :
    Except EscapeError (ClassItem × List Char) :=
  if high < low then
    .error ⟨.invertedRange (quoteChar low) (quoteChar high), total - rest.length⟩
  else .ok (.range low high, rest)

/-- Reads what may follow the character `low`: a dash and an upper bound. A
    dash that ends the body is no part of a range. -/
def readUpper (total : Nat) (low : Char) : List Char → Except EscapeError (ClassItem × List Char)
  | '-' :: high :: cs =>
    if high == '\\' then
      let reading := Escape.read cs
      match reading.outcome with
      | .error fault => .error ⟨fault, total - cs.length⟩
      | .ok (.shorthand letter) =>
        .error ⟨.shorthandAsBound letter, total - reading.rest.length⟩
      | .ok (.char high) => rangeItem total low high reading.rest
    else rangeItem total low high cs
  | cs => .ok (.char low, cs)

def readItem (total : Nat) (first : Char) (cs : List Char) :
    Except EscapeError (ClassItem × List Char) :=
  if first == '\\' then
    let reading := Escape.read cs
    match reading.outcome with
    | .error fault => .error ⟨fault, total - cs.length⟩
    | .ok (.shorthand letter) => .ok (.shorthand letter, reading.rest)
    | .ok (.char low) => readUpper total low reading.rest
  else readUpper total first cs

/-- Reads the parts of a class, at most `fuel` of them. -/
def readItems (total : Nat) : (fuel : Nat) → List Char → Except EscapeError (List ClassItem)
  | 0, _ => .ok []
  | _ + 1, [] => .ok []
  | fuel + 1, c :: cs =>
    match readItem total c cs with
    | .error e => .error e
    | .ok (item, rest) => (readItems total fuel rest).map (item :: ·)

/-- Reads the body of a class, its brackets stripped. -/
def parse (body : List Char) : Except EscapeError CharClass :=
  let (negated, rest) :=
    match body with
    | '^' :: rest => (true, rest)
    | _ => (false, body)
  match readItems body.length rest.length rest with
  | .error e => .error e
  | .ok [] => .error ⟨.emptyClass, 0⟩
  | .ok items => .ok ⟨negated, items, "[" ++ String.ofList body ++ "]"⟩

def debug (cls : CharClass) : String :=
  "CharClass(" ++ cls.spelling ++ ")"

/-- The class of one character holds this character only. -/
theorem contains_single (c d : Char) : (single c).contains d = (c == d) := by
  simp [contains, single, ClassItem.matches]

end CharClass

end Scannerless
