/-!
# Ranges of code points

Character properties are ascending tables of closed ranges of code points. All
tables hold the data of version 17 of Unicode.
-/

namespace Scannerless.Text

/-- Whether the code point of a character lies in one of the closed ranges of
    an ascending table; the search ends at the first range above it. -/
def inRanges : List (Nat × Nat) → Char → Bool
  | [], _ => false
  | (low, high) :: ranges, c =>
    if c.toNat < low then false else c.toNat ≤ high || inRanges ranges c

end Scannerless.Text
