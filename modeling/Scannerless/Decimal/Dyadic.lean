/-!
# Floats as dyadic numbers

A finite float is a sign and a number m · 2^q with natural m. Exact work on
floats is done on this form.

## Main definitions

- `Dyadic.ofFloat` decodes a finite float.
- `Dyadic.toFloat` is the float of a dyadic number that has one.
- `remainder` is the exact remainder of a division that truncates.
-/

namespace Scannerless.Decimal

/-- A sign, a mantissa and a binary exponent. -/
structure Dyadic where
  negative : Bool
  mantissa : Nat
  exponent : Int
  deriving DecidableEq, Repr

/-- The dyadic number of a finite float. The mantissa of a normal float has
    its leading bit at place 52. -/
def Dyadic.ofFloat (x : Float) : Dyadic :=
  let bits := x.toBits.toNat
  let fraction : Nat := bits % Nat.pow 2 52
  let biased : Nat := bits / Nat.pow 2 52 % Nat.pow 2 11
  let negative := bits / Nat.pow 2 63 == 1
  if biased == 0 then ⟨negative, fraction, -1074⟩
  else ⟨negative, Nat.pow 2 52 + fraction, (biased : Int) - 1075⟩

def Dyadic.toFloat (d : Dyadic) : Float :=
  let x := Float.scaleB (Float.ofNat d.mantissa) d.exponent
  if d.negative then -x else x

def isNegative (x : Float) : Bool :=
  x.toBits.toNat / Nat.pow 2 63 == 1

/-- The remainder of a division whose quotient is cut off toward zero. It has
    the sign of the dividend and is exact; dividing by zero or dividing an
    infinity gives no number. -/
def remainder (x y : Float) : Float :=
  if x.isNaN || y.isNaN || x.isInf || y == 0 then 0.0 / 0.0
  else if y.isInf then x
  else
    let a := Dyadic.ofFloat x
    let b := Dyadic.ofFloat y
    let low := min a.exponent b.exponent
    let scaled (d : Dyadic) : Nat := d.mantissa * Nat.pow 2 (d.exponent - low).toNat
    Dyadic.toFloat ⟨a.negative, scaled a % scaled b, low⟩

end Scannerless.Decimal
