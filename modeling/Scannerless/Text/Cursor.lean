/-!
# A buffered cursor

A cursor reads a list from left to right. What it has looked at stays in a
buffer, so that it can be moved back to any place already seen, and what it has
not looked at stays in its source.

## Main definitions

- `Cursor.peek` looks at the element under the cursor.
- `Cursor.next` takes it.
- `Cursor.acceptIf` takes it only if it satisfies a test.
- `Cursor.moveTo` goes to a place already seen.
- `Cursor.remaining` is the view: all elements from the cursor on.

## Main statements

- `Cursor.peek_fst`, `Cursor.remaining_peek`, `Cursor.remaining_next` — looking
  and taking act on the view as `head?` and `tail` do.
-/

namespace Scannerless.Text

/-- A cursor over a list: the elements seen so far, the elements of the source
    not seen yet, and the index of the element under the cursor. -/
structure Cursor (α : Type) where
  seen : Array α
  source : List α
  position : Nat

namespace Cursor

variable {α : Type}

def ofList (elements : List α) : Cursor α :=
  ⟨#[], elements, 0⟩

def ofText (text : String) : Cursor Char :=
  ofList text.toList

/-- The elements from the cursor on. -/
def remaining (c : Cursor α) : List α :=
  (c.seen.toList ++ c.source).drop c.position

/-- Moves elements from the source to the buffer until the buffer holds more
    than `count` of them. -/
def fill (count : Nat) (seen : Array α) : List α → Array α × List α
  | [] => (seen, [])
  | x :: rest => if seen.size ≤ count then fill count (seen.push x) rest else (seen, x :: rest)

/-- The element under the cursor, and the cursor after looking at it. -/
def peek (c : Cursor α) : Option α × Cursor α :=
  let (seen, source) := fill c.position c.seen c.source
  (seen[c.position]?, ⟨seen, source, c.position⟩)

/-- Takes the element under the cursor, if there is one. -/
def next (c : Cursor α) : Option α × Cursor α :=
  match c.peek with
  | (some x, c) => (some x, { c with position := c.position + 1 })
  | (none, c) => (none, c)

def atEnd (c : Cursor α) : Bool × Cursor α :=
  let (x, c) := c.peek
  (x.isNone, c)

/-- Takes the element under the cursor only if it satisfies the test. -/
def acceptIf (test : α → Bool) (c : Cursor α) : Option α × Cursor α :=
  match c.peek with
  | (some x, c) => if test x then (some x, { c with position := c.position + 1 }) else (none, c)
  | (none, c) => (none, c)

/-- Takes the character under the cursor only if it is the one given. -/
def acceptChar (x : Char) (c : Cursor Char) : Bool × Cursor Char :=
  let (found, c) := c.acceptIf (· == x)
  (found.isSome, c)

/-- Moves the cursor to a place already seen, and tells whether it moved. -/
def moveTo (position : Nat) (c : Cursor α) : Bool × Cursor α :=
  if position ≤ c.seen.size then (true, { c with position := position }) else (false, c)

/-- Takes as many elements as asked for, or all that remain. -/
def skip : Nat → Cursor α → Cursor α
  | 0, c => c
  | n + 1, c => skip n c.next.2

/-- Takes every remaining element. -/
def takeAll (c : Cursor α) : List α × Cursor α :=
  (c.remaining, c.skip (c.remaining.length + 1))

/-- Filling the buffer loses nothing and keeps the order. -/
theorem fill_append (count : Nat) (seen : Array α) (source : List α) :
    (fill count seen source).1.toList ++ (fill count seen source).2 = seen.toList ++ source := by
  fun_induction fill count seen source with
  | case1 => rfl
  | case2 seen x rest short ih => simpa using ih
  | case3 => rfl

/-- The buffer is filled behind the asked index, or the source is used up. -/
theorem lt_size_fill (count : Nat) (seen : Array α) (source : List α) :
    count < (fill count seen source).1.size ∨ (fill count seen source).2 = [] := by
  fun_induction fill count seen source with
  | case1 => exact Or.inr rfl
  | case2 seen x rest short ih => exact ih
  | case3 seen x rest full => exact Or.inl (Nat.lt_of_not_le full)

/-- Looking does not move the cursor. -/
@[simp]
theorem remaining_peek (c : Cursor α) : c.peek.2.remaining = c.remaining := by
  simp [peek, remaining, fill_append]

/-- What is seen under the cursor is the first element that remains. -/
theorem peek_fst (c : Cursor α) : c.peek.1 = c.remaining.head? := by
  have all := fill_append c.position c.seen c.source
  rcases lt_size_fill c.position c.seen c.source with full | empty
  · rw [remaining, ← all, List.head?_drop, List.getElem?_append_left (by simpa using full)]
    simp [peek]
  · rw [empty, List.append_nil] at all
    rw [remaining, ← all, List.head?_drop]
    simp [peek]

/-- Taking an element leaves the others. -/
theorem remaining_next (c : Cursor α) : c.next.2.remaining = c.remaining.tail := by
  have front := c.peek_fst
  have same := c.remaining_peek
  rw [next]
  split
  next x after h =>
    rw [h] at front same
    rw [← same]
    simp [remaining]
  next after h =>
    rw [h] at front same
    have : c.remaining = [] := by simpa using front.symm
    rw [same, this, List.tail_nil]

end Cursor

end Scannerless.Text
