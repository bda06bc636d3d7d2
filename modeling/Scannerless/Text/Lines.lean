/-!
# Lines

A text comes in lines. Each of them ends in a newline, or in a carriage return
and a newline, except for the last one, which may end with the text; there is
no empty line behind a newline at the end of a text.

## Main definitions

- `linesWithEnds` — the lines of a text with their ends.
- `dropLineEnd` — a line without its end.
- `lines` — the lines of a text without their ends.

## Main statements

- `flatten_linesWithEnds` — the lines with their ends make up the text.
- `dropLineEnd_newline`, `dropLineEnd_return` — what the end of a line is.
-/

namespace Scannerless.Text

/-- The lines of a text with their ends, `line` being the characters of the
    first line that stand before the text, the last one first. -/
def linesFrom (line : List Char) : List Char → List (List Char)
  | [] => if line.isEmpty then [] else [line.reverse]
  | c :: cs =>
    if c == '\n' then (c :: line).reverse :: linesFrom [] cs
    else linesFrom (c :: line) cs

/-- The lines of a text, each with the newline it ends in. -/
def linesWithEnds (cs : List Char) : List (List Char) :=
  linesFrom [] cs

/-- A line without its newline and the carriage return in front of that. -/
def dropLineEnd (line : List Char) : List Char :=
  match line.reverse with
  | '\n' :: '\r' :: rest => rest.reverse
  | '\n' :: rest => rest.reverse
  | _ => line

def lines (cs : List Char) : List (List Char) :=
  (linesWithEnds cs).map dropLineEnd

/-- The lines from a place on make up the line so far and the text. -/
theorem flatten_linesFrom (line cs : List Char) :
    (linesFrom line cs).flatten = line.reverse ++ cs := by
  fun_induction linesFrom line cs with
  | case1 line h => simp [List.isEmpty_iff.mp h]
  | case2 line h => simp
  | case3 line c cs newline ih => simp [ih]
  | case4 line c cs other ih => simp [ih]

theorem flatten_linesWithEnds (cs : List Char) : (linesWithEnds cs).flatten = cs :=
  flatten_linesFrom [] cs

/-- A newline is the end of a line that has no carriage return in front of
    it. -/
theorem dropLineEnd_newline {line : List Char} (h : line.getLast? ≠ some '\r') :
    dropLineEnd (line ++ ['\n']) = line := by
  rw [dropLineEnd, List.reverse_append, List.reverse_singleton, List.singleton_append]
  split
  next rest same =>
    rw [List.cons.injEq] at same
    rw [← List.head?_reverse, same.2] at h
    exact absurd rfl h
  next rest _ same =>
    rw [List.cons.injEq] at same
    rw [← same.2, List.reverse_reverse]
  next _ none => exact absurd rfl (none line.reverse)

/-- A carriage return and a newline are the end of a line. -/
theorem dropLineEnd_return (line : List Char) :
    dropLineEnd (line ++ ['\r', '\n']) = line := by
  simp [dropLineEnd]

end Scannerless.Text
