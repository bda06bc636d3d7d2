import Scannerless.Text.Bytes

/-!
# Lines and columns

A byte offset of a text corresponds to a line and a column, both counted from
one; a column counts characters.

## Main definitions

- `Location` is a line with a column.
- `lineStarts` lists where the lines of a text start.
- `findSlot` searches an ascending list for a number.
- `locate` gives the location of a byte offset.
- `lineText?` gives the text of a line without its end.
-/

namespace Scannerless.Text

/-- A line and a column, counted from one. -/
structure Location where
  line : Nat
  column : Nat
  deriving DecidableEq, Repr

def Location.describe (l : Location) : String :=
  "line " ++ toString l.line ++ ", column " ++ toString l.column

/-- The offsets just after the newlines of a text whose first character has
    the given offset. -/
def startsAfterNewlines (offset : Nat) : List Char → List Nat
  | [] => []
  | c :: cs =>
    if c == '\n' then (offset + 1) :: startsAfterNewlines (offset + 1) cs
    else startsAfterNewlines (offset + c.utf8Size) cs

/-- The byte offsets where the lines of a text start, the first being zero. -/
def lineStarts (cs : List Char) : List Nat :=
  0 :: startsAfterNewlines 0 cs

/-- Where a number stands in an ascending list. -/
inductive Slot where
  /-- At the index of the entry that equals it. -/
  | hit (index : Nat)
  /-- In front of the first greater entry, at the index of that, or behind all
      entries. -/
  | miss (next : Nat)
  deriving DecidableEq, Repr

/-- Searches an ascending list for a number. -/
def findSlot (entries : List Nat) (n : Nat) : Slot :=
  let next := (entries.takeWhile (· < n)).length
  if entries[next]? == some n then .hit next else .miss next

/-- The index of the line that an offset lies in: the one that starts there, or
    the one in front of the first line that starts behind it. -/
def lineIndex (starts : List Nat) (offset : Nat) : Nat :=
  match findSlot starts offset with
  | .hit line => line
  | .miss next => next - 1

/-- The location of a byte offset; an offset past the end counts as the end.
    The column counts the characters between the start of the line and the
    offset, or the bytes if the offset lies inside a character. -/
def locate (cs : List Char) (offset : Nat) : Location :=
  let offset := min offset (byteLength cs)
  let line := lineIndex (lineStarts cs) offset
  let start := (lineStarts cs).getD line 0
  let width :=
    match slice? start offset cs with
    | some before => before.length
    | none => offset - start
  ⟨line + 1, width + 1⟩

/-- A text without the carriage returns at its back. -/
def dropReturns (cs : List Char) : List Char :=
  (cs.reverse.dropWhile (· == '\r')).reverse

/-- The text of a line, counted from one, without its newline and without
    carriage returns at its back. -/
def lineText? (cs : List Char) : Nat → Option String
  | 0 => none
  | line + 1 =>
    match (lineStarts cs)[line]? with
    | none => none
    | some start =>
      let stop :=
        match (lineStarts cs)[line + 1]? with
        | some next => next - 1
        | none => byteLength cs
      (slice? start stop cs).map fun part => String.ofList (dropReturns part)

end Scannerless.Text
