import Scannerless.Text.Alphanumeric
import Scannerless.Text.Cursor
import Scannerless.Text.Radix

/-!
# Backslash escapes

The escapes of quoted literals and character classes. After a backslash stand
`n`, `r`, `t` or `0` for a control character, one of `s d w S D W` for a class
of characters, `u{...}` for a code point in one to six hexadecimal digits, or
any character that is neither letter nor number for itself.

## Main definitions

- `Escape.read` reads what follows a backslash.
- `unescape` decodes the body of a literal.
- `escapeLiteral` writes a text so that `unescape` reads it back.
-/

namespace Scannerless.Text

/-- What an escape stands for. -/
inductive Escape where
  | char (c : Char)
  /-- A class of characters, named by its letter. -/
  | shorthand (letter : Char)
  deriving DecidableEq, Repr

/-- The ways an escape or a class can be wrong. -/
inductive EscapeFault where
  | dangling
  | unknown (c : Char)
  | openBraceExpected
  | malformedCodePoint
  | notScalar
  | shorthandInLiteral (letter : Char)
  | shorthandAsBound (letter : Char)
  | invertedRange (low high : String)
  | emptyClass
  deriving DecidableEq, Repr

def EscapeFault.message : EscapeFault → String
  | .dangling => "Dangling escape"
  | .unknown c => "Unknown escape \\" ++ c.toString
  | .openBraceExpected => "Expected '\x7b' after \\u"
  | .malformedCodePoint => "Malformed \\u\x7b...\x7d escape"
  | .notScalar => "Escape is not a unicode scalar value"
  | .shorthandInLiteral c => "Class shorthand \\" ++ c.toString ++ " in literal"
  | .shorthandAsBound c => "Class shorthand \\" ++ c.toString ++ " as range bound"
  | .invertedRange low high => "Inverted range " ++ low ++ "-" ++ high
  | .emptyClass => "Empty char class"

/-- A fault and the number of characters before the place it is found at. -/
structure EscapeError where
  fault : EscapeFault
  offset : Nat
  deriving DecidableEq, Repr

def EscapeError.describe (e : EscapeError) : String :=
  e.fault.message ++ " at offset " ++ toString e.offset

/-- The outcome of reading an escape: what it stands for, what is left to read
    also after a fault, and whether the first character left was looked at. -/
structure EscapeReading where
  outcome : Except EscapeFault Escape
  rest : List Char
  lookedAhead : Bool

def Escape.readCodePoint : List Char → EscapeReading
  | '{' :: cs =>
    let digits := cs.takeWhile isHexDigit
    match cs.dropWhile isHexDigit with
    | '}' :: rest =>
      if digits.isEmpty || digits.length > 6 then ⟨.error .malformedCodePoint, rest, false⟩
      else
        match scalar? (hexNumber digits) with
        | some c => ⟨.ok (.char c), rest, false⟩
        | none => ⟨.error .notScalar, rest, false⟩
    | rest => ⟨.error .malformedCodePoint, rest, true⟩
  | cs => ⟨.error .openBraceExpected, cs, true⟩

def Escape.read : List Char → EscapeReading
  | [] => ⟨.error .dangling, [], true⟩
  | c :: cs =>
    if c == 'n' then ⟨.ok (.char '\n'), cs, false⟩
    else if c == 'r' then ⟨.ok (.char '\r'), cs, false⟩
    else if c == 't' then ⟨.ok (.char '\t'), cs, false⟩
    else if c == '0' then ⟨.ok (.char '\x00'), cs, false⟩
    else if ['s', 'd', 'w', 'S', 'D', 'W'].contains c then ⟨.ok (.shorthand c), cs, false⟩
    else if c == 'u' then Escape.readCodePoint cs
    else if isAlphanumeric c then ⟨.error (.unknown c), cs, false⟩
    else ⟨.ok (.char c), cs, false⟩

/-- Reads an escape at a cursor that stands just after the backslash. A fault
    is placed there, and what was read before it stays consumed. -/
def Cursor.escape (c : Cursor Char) : Except EscapeError Escape × Cursor Char :=
  let offset := c.position
  let reading := Escape.read c.remaining
  let after := c.skip (c.remaining.length - reading.rest.length)
  let after := if reading.lookedAhead then after.peek.2 else after
  (reading.outcome.mapError (⟨·, offset⟩), after)

/-- Decodes the end of a literal body of `total` characters. At most `fuel`
    characters and escapes are read. -/
def unescapeFrom (total : Nat) : (fuel : Nat) → List Char → Except EscapeError (List Char)
  | 0, _ => .ok []
  | _ + 1, [] => .ok []
  | fuel + 1, c :: cs =>
    if c == '\\' then
      let reading := Escape.read cs
      match reading.outcome with
      | .error fault => .error ⟨fault, total - cs.length⟩
      | .ok (.shorthand letter) => .error ⟨.shorthandInLiteral letter, total - cs.length⟩
      | .ok (.char e) => (unescapeFrom total fuel reading.rest).map (e :: ·)
    else (unescapeFrom total fuel cs).map (c :: ·)

/-- Decodes the body of a literal, its quotes stripped. -/
def unescape (body : List Char) : Except EscapeError (List Char) :=
  unescapeFrom body.length body.length body

/-- One character of a literal: short escapes for tabs, line ends, quotes and
    the backslash, other printable ASCII characters as they are, and the code
    point of any other. -/
def escapeLiteralChar (c : Char) : List Char :=
  if c == '\t' then ['\\', 't']
  else if c == '\r' then ['\\', 'r']
  else if c == '\n' then ['\\', 'n']
  else if c == '\'' || c == '"' || c == '\\' then ['\\', c]
  else if 0x20 ≤ c.toNat && c.toNat ≤ 0x7E then [c]
  else ['\\', 'u', '{'] ++ hexDigits c.toNat ++ ['}']

/-- A text written as the body of a literal. -/
def escapeLiteral (text : List Char) : List Char :=
  text.flatMap escapeLiteralChar

end Scannerless.Text
