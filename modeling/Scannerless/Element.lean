import Scannerless.CharClass
import Scannerless.CompileError

/-!
# Elements

What the spelling of an element stands for: a symbol by its name, bare or in
angle brackets, a literal in quotes, or a character class in brackets.

## Main definitions

- `Terminal` — a literal or a class.
- `Element.decode` — reads a spelling.
-/

namespace Scannerless

open Text

/-- An element that stands for characters. -/
inductive Terminal where
  | literal (text : List Char)
  | charClass (cls : CharClass)
  deriving DecidableEq, Repr

/-- What stands in a right side. -/
inductive Element where
  | name (name : String)
  | terminal (terminal : Terminal)
  deriving DecidableEq, Repr

/-- The name of the lexeme that a terminal makes up where it stands among
    lexemes. -/
def Terminal.spelling : Terminal → String
  | .literal text => String.ofList (['\''] ++ escapeLiteral text ++ ['\''])
  | .charClass cls => cls.spelling

/-- The classes of the characters that a terminal stands for. -/
def Terminal.classes : Terminal → List CharClass
  | .literal text => text.map CharClass.single
  | .charClass cls => [cls]

/-- Whether a spelling is enclosed by two characters. -/
def enclosed (first last : Char) (cs : List Char) : Bool :=
  2 ≤ cs.length && cs.head? == some first && cs.getLast? == some last

def inside (cs : List Char) : List Char :=
  cs.tail.dropLast

namespace Element

/-- Reads the body of a literal, `spelling` being the literal. -/
def decodeLiteral (spelling : String) (body : List Char) : Except Cause Element :=
  match unescape body with
  | .error e => .error (.badLiteral spelling e)
  | .ok [] => .error (.emptyLiteral spelling)
  | .ok text => .ok (.terminal (.literal text))

/-- Reads the body of a class, `spelling` being the class. -/
def decodeClass (spelling : String) (body : List Char) : Except Cause Element :=
  match CharClass.parse body with
  | .error e => .error (.badClass spelling e)
  | .ok cls => .ok (.terminal (.charClass cls))

/-- Reads a name in angle brackets: its words, one space between them. -/
def decodeName (body : List Char) : Except Cause Element :=
  let joined := " ".intercalate ((words body).map String.ofList)
  if joined.isEmpty then .error .emptyName else .ok (.name joined)

/-- Reads a spelling, blanks around it aside. -/
def decode (raw : String) : Except Cause Element :=
  let cs := trimChars raw.toList
  let spelling := String.ofList cs
  if enclosed '[' ']' cs then decodeClass spelling (inside cs)
  else if enclosed '\'' '\'' cs || enclosed '"' '"' cs then decodeLiteral spelling (inside cs)
  else if enclosed '<' '>' cs then decodeName (inside cs)
  else if !cs.isEmpty && cs.all isNameChar then .ok (.name spelling)
  else .error (.badSymbol spelling)

/-- Reads a spelling that stands at an offset. -/
def decodeAt (raw : String) (offset : Nat) : Except Fault Element :=
  (decode raw).mapError (⟨·, offset⟩)

def decodeNameAt (raw : String) (offset : Nat) : Except Fault String :=
  match decodeAt raw offset with
  | .error fault => .error fault
  | .ok (.name symbol) => .ok symbol
  | .ok (.terminal _) => .error ⟨.nameExpected raw, offset⟩

end Element

end Scannerless
