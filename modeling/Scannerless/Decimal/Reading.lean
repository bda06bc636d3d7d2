/-!
# Reading numbers

Numbers as they are written in text: integers of a number of bits, and floats
with an optional fraction and exponent.

## Main definitions

- `readInteger?` reads a signed integer that fits into a number of bits.
- `readNatural?` reads an unsigned integer that fits into a number of bits.
- `readFloat?` reads a float.
-/

namespace Scannerless.Decimal

/-- The number written by decimal digits. -/
def digitsValue (digits : List Char) : Nat :=
  digits.foldl (fun n c => 10 * n + (c.toNat - '0'.toNat)) 0

/-- The number written by a text that consists of digits, one at least. -/
def readDigits? (cs : List Char) : Option Nat :=
  if cs.isEmpty || !cs.all Char.isDigit then none else some (digitsValue cs)

/-- Takes a sign from the front of a text and tells whether it is negative. -/
def takeSign : List Char → Bool × List Char
  | '-' :: cs => (true, cs)
  | '+' :: cs => (false, cs)
  | cs => (false, cs)

/-- The integer written by a text, with an optional sign, if it fits into
    `bits` bits, one of them for the sign. -/
def readInteger? (bits : Nat) (cs : List Char) : Option Int :=
  let (negative, body) := takeSign cs
  match readDigits? body with
  | none => none
  | some n =>
    let bound := Nat.pow 2 (bits - 1)
    if negative then if n ≤ bound then some (-(n : Int)) else none
    else if n < bound then some n else none

/-- The number written by a text, with an optional plus sign, if it fits into
    `bits` bits. -/
def readNatural? (bits : Nat) (cs : List Char) : Option Nat :=
  let body := match cs with
    | '+' :: rest => rest
    | _ => cs
  match readDigits? body with
  | none => none
  | some n => if n < Nat.pow 2 bits then some n else none

/-- The float nearest to m · 10^e. Beyond four hundred digits before or after
    the point it is infinite or zero. -/
def nearestFloat (m : Nat) (e : Int) : Float :=
  let magnitude := (Nat.toDigits 10 m).length + e
  if m == 0 then 0
  else if magnitude > 400 then 1.0 / 0.0
  else if magnitude < -400 then 0
  else Float.ofScientific m (e < 0) e.natAbs

/-- The exponent at the back of a float: nothing, or the letter `e` and an
    integer. -/
def readExponent? : List Char → Option Int
  | [] => some 0
  | c :: cs =>
    if c == 'e' || c == 'E' then
      let (negative, body) := takeSign cs
      (readDigits? body).map fun n => if negative then -(n : Int) else n
    else none

/-- A float without its sign: digits with at most one point, one digit at
    least, then an exponent. -/
def readUnsigned? (cs : List Char) : Option Float :=
  let whole := cs.takeWhile Char.isDigit
  let rest := cs.dropWhile Char.isDigit
  let (fraction, rest) := match rest with
    | '.' :: rest => (rest.takeWhile Char.isDigit, rest.dropWhile Char.isDigit)
    | rest => ([], rest)
  if whole.isEmpty && fraction.isEmpty then none
  else
    (readExponent? rest).map fun e =>
      nearestFloat (digitsValue (whole ++ fraction)) (e - fraction.length)

/-- The float written by a text: an optional sign, and then a number or, in
    letters of any case, an infinity or no number. -/
def readFloat? (cs : List Char) : Option Float :=
  let (negative, body) := takeSign cs
  let word := String.ofList (body.map Char.toLower)
  let size :=
    if word == "inf" || word == "infinity" then some (1.0 / 0.0)
    else if word == "nan" then some (0.0 / 0.0)
    else readUnsigned? body
  size.map fun x => if negative then -x else x

end Scannerless.Decimal
