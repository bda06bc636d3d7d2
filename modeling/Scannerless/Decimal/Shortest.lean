import Scannerless.Decimal.Dyadic

/-!
# Shortest decimals

The decimal number with the fewest digits among those that read back to a
given float, and of these the nearest to it.

## Main definitions

- `Digits` is a decimal number by its digits and the place of its point.
- `Interval` holds the real numbers that round to a float.
- `shortest` searches the grids of powers of ten from coarse to fine.
-/

namespace Scannerless.Decimal

/-- The number 0.d₁d₂…dₙ · 10^point of the digits d₁ … dₙ. -/
structure Digits where
  digits : List Char
  point : Int
  deriving DecidableEq, Repr

/-- The numbers that round to a float, as multiples of one unit 2^`scale`:
    `low` to `high` with `value` between, the ends included or not. -/
structure Interval where
  low : Nat
  value : Nat
  high : Nat
  scale : Int
  closed : Bool

/-- The numbers that round to m · 2^q. Below a power of two the floats lie
    twice as close; the ends belong to the float whose mantissa is even. -/
def Interval.ofDyadic (d : Dyadic) : Interval :=
  let gap := if d.mantissa == Nat.pow 2 52 && d.exponent > -1074 then 1 else 2
  { low := 4 * d.mantissa - gap
    value := 4 * d.mantissa
    high := 4 * d.mantissa + 2
    scale := d.exponent - 2
    closed := d.mantissa % 2 == 0 }

/-- Writes n · 2^s / 10^k as a numerator over a denominator that does not
    depend on n. -/
def overGrid (s k : Int) (n : Nat) : Nat :=
  n * Nat.pow 2 s.toNat * Nat.pow 10 (-k).toNat

/-- The denominator of `overGrid`. -/
def gridUnit (s k : Int) : Nat :=
  Nat.pow 2 (-s).toNat * Nat.pow 10 k.toNat

/-- Whether c · 10^k lies in the interval. -/
def Interval.contains (i : Interval) (k : Int) (c : Nat) : Bool :=
  let unit := gridUnit i.scale k
  let low := overGrid i.scale k i.low
  let high := overGrid i.scale k i.high
  if i.closed then low ≤ c * unit && c * unit ≤ high else low < c * unit && c * unit < high

/-- The multiple of 10^k in the interval that is nearest to the float, the
    upper one of two that are equally near. -/
def Interval.onGrid? (i : Interval) (k : Int) : Option Nat :=
  let unit := gridUnit i.scale k
  let value := overGrid i.scale k i.value
  let below := value / unit
  let above := below + 1
  match 0 < below && i.contains k below, i.contains k above with
  | true, true => if 2 * value < (below + above) * unit then some below else some above
  | true, false => some below
  | false, true => some above
  | false, false => none

/-- The multiple of the coarsest grid 10^k, with k going down from `k` at most
    `steps` times, that lies in the interval. -/
def Interval.coarsest (i : Interval) : (steps : Nat) → (k : Int) → Nat × Int
  | 0, k => ((i.onGrid? k).getD 0, k)
  | steps + 1, k =>
    match i.onGrid? k with
    | some c => (c, k)
    | none => i.coarsest steps (k - 1)

/-- The digits of c · 10^k without zeros at the back. -/
def Digits.ofScaled (c : Nat) (k : Int) : Digits :=
  let all := Nat.toDigits 10 c
  ⟨(all.reverse.dropWhile (· == '0')).reverse, all.length + k⟩

/-- The exponent of a power of ten that lies above 2^e, for the exponents of
    floats. The logarithm of two is 0.30102999…; one more than the exponent that
    its approximation gives makes up for the difference. -/
def exponentAbove (e : Int) : Int :=
  e * 30103 / 100000 + 2

/-- The fewest digits that read back to a positive float; of two numbers with
    these digits the nearer, and the upper one on a tie. No positive multiple of
    a power of ten above the interval lies in it, and no float needs a grid below
    10^-343. -/
def shortest (d : Dyadic) : Digits :=
  let interval := Interval.ofDyadic d
  let top := exponentAbove (Nat.log2 interval.high + 1 + interval.scale)
  let (c, k) := interval.coarsest (top + 343).toNat top
  Digits.ofScaled c k

end Scannerless.Decimal
