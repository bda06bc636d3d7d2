import Scannerless.Decimal.Shortest

/-!
# Layouts of decimal numbers

A float is shown by its shortest digits, either in positional notation or with
an exponent.

## Main definitions

- `Layout` says how a float is laid out.
- `plain` is the layout of a value.
- `marked` is the layout that marks a value as a float.
-/

namespace Scannerless.Decimal

/-- When an exponent is written, and how many digits follow the point at
    least in positional notation. -/
structure Layout where
  usesExponent : Digits → Bool
  leastFraction : Nat

/-- Always positional, and no point after an integer. -/
def plain : Layout :=
  ⟨fun _ => false, 0⟩

/-- Positional from 10^-4 up to 10^16 with a digit after the point, and an
    exponent outside. -/
def marked : Layout :=
  ⟨fun d => d.point > 16 || d.point < -3, 1⟩

/-- Digits in positional notation with at least `least` of them after the
    point. -/
def positional (least : Nat) (d : Digits) : List Char :=
  let whole :=
    if d.point ≤ 0 then ['0']
    else d.digits.take d.point.toNat ++ List.replicate (d.point.toNat - d.digits.length) '0'
  let fraction :=
    if d.point ≤ 0 then List.replicate (-d.point).toNat '0' ++ d.digits
    else d.digits.drop d.point.toNat
  let fraction := fraction ++ List.replicate (least - fraction.length) '0'
  if fraction.isEmpty then whole else whole ++ ['.'] ++ fraction

/-- Digits with an exponent: one before the point, the others after it. -/
def exponential (d : Digits) : List Char :=
  let first := d.digits.take 1
  let others := d.digits.drop 1
  let mantissa := if others.isEmpty then first else first ++ ['.'] ++ others
  mantissa ++ ['e'] ++ (toString (d.point - 1)).toList

/-- The text of a positive finite float. -/
def Layout.positive (l : Layout) (d : Dyadic) : List Char :=
  let digits := shortest d
  if l.usesExponent digits then exponential digits else positional l.leastFraction digits

def Layout.render (l : Layout) (x : Float) : String :=
  if x.isNaN then "NaN"
  else
    let size :=
      if x.isInf then "inf".toList
      else if x == 0 then positional l.leastFraction ⟨[], 0⟩
      else l.positive (Dyadic.ofFloat x)
    String.ofList (if isNegative x then '-' :: size else size)

end Scannerless.Decimal
