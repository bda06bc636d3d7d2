import Scannerless.Text.Bytes

/-!
# Indexed texts

A text with the texts that follow its byte offsets. A place of it is found in
one step, and not by reading from the start of the text.

## Main definitions

- `Indexed` — a text with its length and what follows its byte offsets.
- `Indexed.ofList` — the index of a text.
- `Indexed.suffixAt`, `Indexed.between` — cuts through the index.

## Main statements

- `Indexed.suffixAt_eq`, `Indexed.between_eq` — cuts through the index are cuts
  of the text.
-/

namespace Scannerless.Text

/-- The texts `found`, and behind them those that follow the byte offsets of a
    text, none following an offset inside a character. -/
def addSuffixes (found : Array (List Char)) : List Char → Array (List Char)
  | [] => found
  | c :: cs =>
    addSuffixes (found.push (c :: cs) ++ Array.replicate (c.utf8Size - 1) []) cs

/-- Nothing follows the end of a text. -/
theorem suffixAt_nil (n : Nat) : suffixAt n [] = [] := by
  cases n <;> rfl

/-- The text behind a first character is that of the rest. -/
theorem suffixAt_cons {n : Nat} {c : Char} {cs : List Char} (h : c.utf8Size ≤ n) :
    suffixAt n (c :: cs) = suffixAt (n - c.utf8Size) cs := by
  obtain ⟨m, rfl⟩ : ∃ m, n = m + 1 := ⟨n - 1, by have := c.utf8Size_pos; omega⟩
  rw [suffixAt, dropBytes?, if_pos h, suffixAt]

/-- No text follows an offset inside the first character. -/
theorem suffixAt_inside {n : Nat} {c : Char} {cs : List Char} (h : n < c.utf8Size)
    (pos : 0 < n) : suffixAt n (c :: cs) = [] := by
  obtain ⟨m, rfl⟩ : ∃ m, n = m + 1 := ⟨n - 1, by omega⟩
  rw [suffixAt, dropBytes?, if_neg (by omega), Option.getD_none]

/-- What is found at an index is one of the given texts or follows an offset of
    the text. -/
theorem getD_addSuffixes (found : Array (List Char)) (cs : List Char) (n : Nat) :
    (addSuffixes found cs).getD n [] =
      if n < found.size then found.getD n [] else suffixAt (n - found.size) cs := by
  fun_induction addSuffixes found cs with
  | case1 found =>
    split
    · rfl
    · exact (suffixAt_nil _).symm
  | case2 found c cs ih =>
    have positive := c.utf8Size_pos
    rw [ih]
    simp only [Array.size_append, Array.size_push, Array.size_replicate]
    by_cases before : n < found.size
    · rw [if_pos (by omega), if_pos before]
      rw [Array.getD_eq_getD_getElem?, Array.getD_eq_getD_getElem?,
        Array.getElem?_append_left (by simp; omega), Array.getElem?_push, if_neg (by omega)]
    · rw [if_neg before]
      by_cases within : n < found.size + c.utf8Size
      · rw [if_pos (by omega)]
        by_cases first : n = found.size
        · subst first
          simp [Array.getElem?_append, suffixAt, dropBytes?]
        · rw [suffixAt_inside (by omega) (by omega)]
          simp only [Array.getD_eq_getD_getElem?, Array.getElem?_append, Array.size_push]
          rw [if_neg (by omega)]
          rw [Array.getElem?_replicate]
          split <;> rfl
      · rw [if_neg (by omega), suffixAt_cons (by omega)]
        congr 1
        omega

/-- A text with its length in bytes and what follows its byte offsets. -/
structure Indexed where
  chars : List Char
  size : Nat
  suffixes : Array (List Char)
  size_eq : size = byteLength chars
  suffixes_eq : ∀ n, suffixes.getD n [] = Text.suffixAt n chars

namespace Indexed

def ofList (cs : List Char) : Indexed where
  chars := cs
  size := byteLength cs
  suffixes := addSuffixes #[] cs
  size_eq := rfl
  suffixes_eq n := by rw [getD_addSuffixes]; rfl

def suffixAt (text : Indexed) (offset : Nat) : List Char :=
  text.suffixes.getD offset []

def between (text : Indexed) (start stop : Nat) : String :=
  if start ≤ stop then
    String.ofList ((takeBytes? (stop - start) (text.suffixAt start)).getD [])
  else ""

/-- A cut through the index is a cut of the text. -/
theorem suffixAt_eq (text : Indexed) (offset : Nat) :
    text.suffixAt offset = Text.suffixAt offset text.chars :=
  text.suffixes_eq offset

theorem between_eq (text : Indexed) (start stop : Nat) :
    text.between start stop = Text.between start stop text.chars := by
  rw [between, Text.between, slice?, suffixAt_eq, Text.suffixAt]
  split
  · cases dropBytes? start text.chars with
    | some rest => rfl
    | none => cases stop - start <;> rfl
  · rfl

/-- Between the ends of two parts stands the second one. -/
theorem between_append {text : Indexed} {before part rest : List Char}
    (h : text.chars = before ++ (part ++ rest)) :
    text.between (byteLength before) (byteLength (before ++ part)) = String.ofList part := by
  rw [between_eq, Text.between, h, ← List.append_assoc, byteLength_append, slice?_append,
    Option.getD_some]

end Indexed

end Scannerless.Text
