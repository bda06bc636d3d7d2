import Scannerless.Decimal.Layout
import Scannerless.Decimal.Reading
import Scannerless.Text.Blank
import Scannerless.Text.Quoted

/-!
# Values

What evaluation produces unless a parser brings values of its own: nothing,
text, numbers and lists.

## Main definitions

- `Value` — the values.
- `Value.display` and `Value.debug` — a value for its readers and with its
  type.
- `Value.asFloat?` and `Value.asInteger?` — numbers, text being read as one.
-/

namespace Scannerless

open Text Decimal

/-- A value; integers have 64 bits. -/
inductive Value where
  | undefined
  | text (s : String)
  | int (n : Int64)
  | float (x : Float)
  | list (items : List Value)
  deriving Inhabited

namespace Value

mutual

/-- Whether two values are equal: floats as numbers, so that no float without
    a number equals itself, and never an integer to a float. -/
def equal : Value → Value → Bool
  | .undefined, .undefined => true
  | .text a, .text b => a == b
  | .int a, .int b => a == b
  | .float a, .float b => a == b
  | .list a, .list b => equalAll a b
  | _, _ => false

def equalAll : List Value → List Value → Bool
  | [], [] => true
  | a :: as, b :: bs => equal a b && equalAll as bs
  | _, _ => false

end

instance : BEq Value := ⟨equal⟩

mutual

/-- A value as it is shown to a reader. -/
def display : Value → String
  | .undefined => "undef"
  | .text s => s
  | .int n => toString n.toInt
  | .float x => plain.render x
  | .list items => "[" ++ ", ".intercalate (displayAll items) ++ "]"

def displayAll : List Value → List String
  | [] => []
  | v :: vs => display v :: displayAll vs

end

mutual

/-- A value with the name of its type, and its text in quotes. -/
def debug : Value → String
  | .undefined => "Undef"
  | .text s => "Text(" ++ quoteText s ++ ")"
  | .int n => "Int(" ++ toString n.toInt ++ ")"
  | .float x => "Float(" ++ marked.render x ++ ")"
  | .list items => "List([" ++ ", ".intercalate (debugAll items) ++ "])"

def debugAll : List Value → List String
  | [] => []
  | v :: vs => debug v :: debugAll vs

end

/-- Whether a value is the neutral one. -/
def isUndefined : Value → Bool
  | .undefined => true
  | _ => false

def asText? : Value → Option String
  | .text s => some s
  | _ => none

def asList? : Value → Option (List Value)
  | .list items => some items
  | _ => none

/-- A number as a float; text counts if it is a number between blanks. -/
def asFloat? : Value → Option Float
  | .int n => some n.toFloat
  | .float x => some x
  | .text s => readFloat? (trimChars s.toList)
  | _ => none

/-- The integer a text stands for, if it fits into 64 bits. -/
def readInt64? (cs : List Char) : Option Int64 :=
  (readInteger? 64 cs).map Int64.ofInt

/-- An integer; text counts if it is an integer between blanks. -/
def asInteger? : Value → Option Int64
  | .int n => some n
  | .text s => readInt64? (trimChars s.toList)
  | _ => none

end Value

end Scannerless
