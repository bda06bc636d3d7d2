import Scannerless.Text.Cursor

/-!
# Cursors as places in a list

A cursor that is asked one thing after another answers as if the whole list lay before it: it is a
place in the list, together with the number of elements that have been looked at. The elements
looked at are in its buffer and the others in its source, both in the order of the list, however
the cursor has been moved back in between.

## Main definitions

- `Cursor.Call`, `Cursor.run` — what a cursor is asked, and its answers.
- `Cursor.Progress` — a place in a list, with the number of elements looked at.
- `Cursor.Call.read`, `Cursor.Progress.run` — the answers that the list gives.
- `Cursor.Represents` — a cursor stands at a place of a list.

## Main statements

- `Cursor.Represents.answer` — one call is answered as by the list.
- `Cursor.Represents.run` — and so is one call after another.
- `cursor_exact` — a cursor on a list, whatever it is asked.
-/

namespace Scannerless.Text

namespace Cursor

/-! ### Calls -/

/-- What a cursor may be asked. Only a cursor over a text can be asked for a given character. -/
inductive Call : Type → Type 1 where
  | next {α : Type} : Call α
  | peek {α : Type} : Call α
  | atEnd {α : Type} : Call α
  | acceptIf {α : Type} (test : α → Bool) : Call α
  | acceptChar (x : Char) : Call Char
  | offset {α : Type} : Call α
  | moveTo {α : Type} (position : Nat) : Call α

inductive Answer (α : Type) where
  | element (x : Option α)
  | flag (b : Bool)
  | offset (n : Nat)

/-- The answer of a cursor, and the cursor after it. -/
def Call.answer : {α : Type} → Call α → Cursor α → Answer α × Cursor α
  | _, .next, c => (.element c.next.1, c.next.2)
  | _, .peek, c => (.element c.peek.1, c.peek.2)
  | _, .atEnd, c => (.flag c.atEnd.1, c.atEnd.2)
  | _, .acceptIf test, c => (.element (c.acceptIf test).1, (c.acceptIf test).2)
  | _, .acceptChar x, c => (.flag (c.acceptChar x).1, (c.acceptChar x).2)
  | _, .offset, c => (.offset c.position, c)
  | _, .moveTo position, c => (.flag (c.moveTo position).1, (c.moveTo position).2)

/-- The answers of a cursor to one call after another, and the cursor after them. -/
def run {α : Type} : List (Call α) → Cursor α → List (Answer α) × Cursor α
  | [], c => ([], c)
  | call :: calls, c =>
    ((call.answer c).1 :: (run calls (call.answer c).2).1, (run calls (call.answer c).2).2)

/-! ### Places in a list -/

/-- A place in a list, and the largest number of elements that have been demanded of it. -/
structure Progress where
  position : Nat
  seen : Nat
  deriving DecidableEq, Repr

namespace Progress

variable {α : Type}

/-- Looking at a place demands the elements up to it, as far as there are any. -/
def look (xs : List α) (p : Progress) : Progress :=
  { p with seen := max p.seen (min (p.position + 1) xs.length) }

def moveTo (position : Nat) (p : Progress) : Progress :=
  { p with position := position }

end Progress

/-- The answer that a list gives at a place, and the place after it. The element at the place is
    what is seen there and what is taken, if there is one. It is accepted if it is as it is asked
    for. Only the places up to the last element seen can be moved to. -/
def Call.read : {α : Type} → Call α → List α → Progress → Answer α × Progress
  | _, .next, xs, p =>
    (.element xs[p.position]?,
      if p.position < xs.length then (p.look xs).moveTo (p.position + 1) else p.look xs)
  | _, .peek, xs, p => (.element xs[p.position]?, p.look xs)
  | _, .atEnd, xs, p => (.flag (p.position == xs.length), p.look xs)
  | _, .acceptIf test, xs, p =>
    if xs[p.position]?.any test then
      (.element xs[p.position]?, (p.look xs).moveTo (p.position + 1))
    else (.element none, p.look xs)
  | _, .acceptChar x, xs, p =>
    if xs[p.position]? = some x then (.flag true, (p.look xs).moveTo (p.position + 1))
    else (.flag false, p.look xs)
  | _, .offset, _, p => (.offset p.position, p)
  | _, .moveTo position, _, p =>
    if position ≤ p.seen then (.flag true, p.moveTo position) else (.flag false, p)

/-- The answers that a list gives to one call after another, and the place after them. -/
def Progress.run {α : Type} (xs : List α) : List (Call α) → Progress → List (Answer α) × Progress
  | [], p => ([], p)
  | call :: calls, p =>
    ((call.read xs p).1 :: (run xs calls (call.read xs p).2).1,
      (run xs calls (call.read xs p).2).2)

/-! ### Cursors in terms of looking -/

section

variable {α : Type} (c : Cursor α)

theorem next_eq : c.next =
    (c.peek.1, if c.peek.1.isSome then { c.peek.2 with position := c.peek.2.position + 1 }
      else c.peek.2) := by
  rw [next]
  split
  next x after h => rw [h]; rfl
  next after h => rw [h]; rfl

theorem acceptIf_eq (test : α → Bool) : c.acceptIf test =
    if c.peek.1.any test then
      (c.peek.1, { c.peek.2 with position := c.peek.2.position + 1 })
    else (none, c.peek.2) := by
  rw [acceptIf]
  split
  next x after h => rw [h]; rfl
  next after h => rw [h]; rfl

end

/-! ### Cursors that stand at a place -/

/-- A cursor stands at a place of a list: the elements looked at are in its buffer and the others
    in its source. -/
structure Represents {α : Type} (c : Cursor α) (xs : List α) (p : Progress) : Prop where
  seen : c.seen.toList = xs.take p.seen
  source : c.source = xs.drop p.seen
  position : c.position = p.position
  le : p.position ≤ p.seen
  bounded : p.seen ≤ xs.length

section

variable {α : Type} {xs : List α} {c : Cursor α} {p : Progress}

theorem represents_ofList (xs : List α) : (ofList xs).Represents xs ⟨0, 0⟩ :=
  ⟨rfl, rfl, rfl, Nat.le_refl 0, Nat.zero_le _⟩

/-- A buffer that reaches far enough is left alone. -/
theorem fill_of_lt {count : Nat} {seen : Array α} (h : count < seen.size) (source : List α) :
    fill count seen source = (seen, source) := by
  cases source with
  | nil => rfl
  | cons x rest => rw [fill, if_neg (Nat.not_le_of_lt h)]

/-- A buffer that lacks one element takes one. -/
theorem fill_size (seen : Array α) (x : α) (rest : List α) :
    fill seen.size seen (x :: rest) = (seen.push x, rest) := by
  rw [fill, if_pos (Nat.le_refl _)]
  exact fill_of_lt (by simp) rest

namespace Represents

theorem size_seen (h : c.Represents xs p) : c.seen.size = p.seen := by
  rw [← Array.length_toList, h.seen, List.length_take, Nat.min_eq_left h.bounded]

/-- The buffer and the source make up the list. -/
theorem append_eq (h : c.Represents xs p) : c.seen.toList ++ c.source = xs := by
  rw [h.seen, h.source, List.take_append_drop]

/-- What remains is the list from the place on. -/
theorem remaining_eq (h : c.Represents xs p) : c.remaining = xs.drop p.position := by
  rw [remaining, h.append_eq, h.position]

theorem peek_fst (h : c.Represents xs p) : c.peek.1 = xs[p.position]? := by
  rw [Cursor.peek_fst, h.remaining_eq, List.head?_drop]

/-- After looking, the element at the place is in the buffer, if there is one. -/
theorem peek_snd (h : c.Represents xs p) : c.peek.2.Represents xs (p.look xs) := by
  have hpeek : c.peek.2 = ⟨(fill c.position c.seen c.source).1,
      (fill c.position c.seen c.source).2, c.position⟩ := rfl
  have hbounded := h.bounded
  rcases Nat.lt_or_eq_of_le h.le with hlt | heq
  · have hfill : fill c.position c.seen c.source = (c.seen, c.source) :=
      fill_of_lt (by rwa [h.size_seen, h.position]) c.source
    have hlook : p.look xs = p := by
      rw [Progress.look, Nat.max_eq_left (by omega)]
    rw [hpeek, hfill, hlook]
    exact h
  · have hsize : c.position = c.seen.size := by rw [h.size_seen, h.position, heq]
    rcases Nat.lt_or_eq_of_le hbounded with hmore | hall
    · -- The next element of the source comes into the buffer.
      have hsource : c.source = xs[p.seen] :: xs.drop (p.seen + 1) := by
        rw [h.source, List.drop_eq_getElem_cons hmore]
      have hlook : p.look xs = ⟨p.position, p.seen + 1⟩ := by
        rw [Progress.look, heq, Nat.min_eq_left hmore, Nat.max_eq_right (Nat.le_succ _)]
      rw [hpeek, hsource, hsize, fill_size, hlook]
      refine ⟨?_, rfl, by rw [← hsize, h.position], Nat.le_succ_of_le h.le, hmore⟩
      rw [Array.toList_push, h.seen, List.take_append_getElem hmore]
    · have hsource : c.source = [] := by rw [h.source, hall, List.drop_length]
      have hlook : p.look xs = p := by
        rw [Progress.look, Nat.max_eq_left (by omega)]
      rw [hpeek, hsource, hlook]
      exact ⟨h.seen, hsource.symm.trans h.source, h.position, h.le, h.bounded⟩

/-- A cursor may be moved to any place up to the last element in its buffer. -/
theorem moveTo (h : c.Represents xs p) {position : Nat} (hle : position ≤ p.seen) :
    Represents { c with position := position } xs (p.moveTo position) :=
  ⟨h.seen, h.source, rfl, hle, h.bounded⟩

/-- A cursor that looks at an element may be moved behind it. -/
theorem advance (h : c.Represents xs p) (hlt : p.position < xs.length) :
    Represents { c.peek.2 with position := c.peek.2.position + 1 } xs
      ((p.look xs).moveTo (p.position + 1)) := by
  have hposition : c.peek.2.position = p.position := h.peek_snd.position
  rw [hposition]
  refine h.peek_snd.moveTo ?_
  simp only [Progress.look]
  omega

/-- Nothing is at the place exactly if it is the end of the list. -/
theorem getElem?_eq_none_iff (h : c.Represents xs p) :
    xs[p.position]? = none ↔ p.position = xs.length := by
  rw [List.getElem?_eq_none_iff]
  have hle := h.le
  have hbounded := h.bounded
  omega

/-! ### Calls -/

theorem next (h : c.Represents xs p) :
    (Call.answer .next c).1 = (Call.read .next xs p).1 ∧
      (Call.answer .next c).2.Represents xs (Call.read .next xs p).2 := by
  simp only [Call.answer, Call.read, next_eq, h.peek_fst, isSome_getElem?, true_and]
  split
  next hlt => exact h.advance hlt
  next => exact h.peek_snd

theorem atEnd (h : c.Represents xs p) :
    (Call.answer .atEnd c).1 = (Call.read .atEnd xs p).1 ∧
      (Call.answer .atEnd c).2.Represents xs (Call.read .atEnd xs p).2 := by
  refine ⟨?_, h.peek_snd⟩
  have hend : xs[p.position]?.isNone = (p.position == xs.length) := by
    rw [Bool.eq_iff_iff, Option.isNone_iff_eq_none, h.getElem?_eq_none_iff, beq_iff_eq]
  simp only [Call.answer, Call.read, Cursor.atEnd, h.peek_fst, hend]

/-- An element that is accepted is taken. -/
theorem acceptIf_of_any (h : c.Represents xs p) {test : α → Bool}
    (htest : xs[p.position]?.any test = true) :
    (c.acceptIf test).1 = xs[p.position]? ∧
      (c.acceptIf test).2.Represents xs ((p.look xs).moveTo (p.position + 1)) := by
  rw [acceptIf_eq, h.peek_fst, if_pos htest]
  obtain ⟨x, hx⟩ := Option.isSome_iff_exists.mp (Option.isSome_of_any htest)
  exact ⟨rfl, h.advance (List.getElem?_eq_some_iff.mp hx).1⟩

/-- An element that is not accepted is only looked at. -/
theorem acceptIf_of_not_any (h : c.Represents xs p) {test : α → Bool}
    (htest : ¬xs[p.position]?.any test = true) :
    (c.acceptIf test).1 = none ∧ (c.acceptIf test).2.Represents xs (p.look xs) := by
  rw [acceptIf_eq, h.peek_fst, if_neg htest]
  exact ⟨rfl, h.peek_snd⟩

theorem acceptChar {c : Cursor Char} {xs : List Char} (h : c.Represents xs p) (x : Char) :
    (Call.answer (.acceptChar x) c).1 = (Call.read (.acceptChar x) xs p).1 ∧
      (Call.answer (.acceptChar x) c).2.Represents xs (Call.read (.acceptChar x) xs p).2 := by
  have hany : xs[p.position]?.any (· == x) = true ↔ xs[p.position]? = some x := by
    cases xs[p.position]? <;> simp
  simp only [Call.answer, Call.read, Cursor.acceptChar]
  split
  next hx =>
    obtain ⟨hfst, hsnd⟩ := h.acceptIf_of_any (hany.mpr hx)
    exact ⟨by rw [hfst, hx, Option.isSome_some], hsnd⟩
  next hx =>
    obtain ⟨hfst, hsnd⟩ := h.acceptIf_of_not_any (mt hany.mp hx)
    exact ⟨by rw [hfst, Option.isSome_none], hsnd⟩

/-- A call is answered as by the list, and leads to the place that the list leads to. -/
theorem answer (h : c.Represents xs p) (call : Call α) :
    (call.answer c).1 = (call.read xs p).1 ∧
      (call.answer c).2.Represents xs (call.read xs p).2 := by
  cases call with
  | next => exact h.next
  | peek => exact ⟨congrArg Answer.element h.peek_fst, h.peek_snd⟩
  | atEnd => exact h.atEnd
  | acceptIf test =>
    simp only [Call.answer, Call.read]
    split
    next htest =>
      obtain ⟨hfst, hsnd⟩ := h.acceptIf_of_any htest
      exact ⟨by rw [hfst], hsnd⟩
    next htest =>
      obtain ⟨hfst, hsnd⟩ := h.acceptIf_of_not_any htest
      exact ⟨by rw [hfst], hsnd⟩
  | acceptChar x => exact h.acceptChar x
  | offset => exact ⟨congrArg Answer.offset h.position, h⟩
  | moveTo position =>
    simp only [Call.answer, Call.read, Cursor.moveTo, h.size_seen]
    split
    next hle => exact ⟨rfl, h.moveTo hle⟩
    next => exact ⟨rfl, h⟩

/-- One call after another is answered as by the list. -/
theorem run (h : c.Represents xs p) (calls : List (Call α)) :
    (Cursor.run calls c).1 = (Progress.run xs calls p).1 ∧
      (Cursor.run calls c).2.Represents xs (Progress.run xs calls p).2 := by
  induction calls generalizing c p with
  | nil => exact ⟨rfl, h⟩
  | cons call calls ih =>
    obtain ⟨hanswer, hafter⟩ := h.answer call
    obtain ⟨hanswers, hlast⟩ := ih hafter
    exact ⟨by rw [Cursor.run, Progress.run, hanswer, hanswers], hlast⟩

end Represents

end

end Cursor

/-- A cursor on a list, whatever it is asked, answers as the list does from place to place. Its
    buffer holds the elements up to the largest number that has been demanded, and its source the
    others, so that all elements are there once and in their order. Nothing is at the place of the
    cursor only at the end of the list. -/
theorem cursor_exact {α : Type} (xs : List α) (calls : List (Cursor.Call α)) :
    ∃ answers c p, Cursor.run calls (.ofList xs) = (answers, c) ∧
      Cursor.Progress.run xs calls ⟨0, 0⟩ = (answers, p) ∧
      c.position = p.position ∧ c.seen.toList = xs.take p.seen ∧ c.source = xs.drop p.seen ∧
      p.position ≤ p.seen ∧ p.seen ≤ xs.length ∧
      c.remaining = xs.drop p.position ∧
      (xs[p.position]? = none ↔ p.position = xs.length) := by
  obtain ⟨hanswers, h⟩ := (Cursor.represents_ofList xs).run calls
  exact ⟨_, _, _, rfl, Prod.ext hanswers.symm rfl, h.position, h.seen, h.source, h.le,
    h.bounded, h.remaining_eq, h.getElem?_eq_none_iff⟩

/-- An escape is given up behind its second character, and the cursor goes back to the letter. The
    character behind the brace has not been looked at, so that it cannot be moved to. -/
example : (Cursor.run [.acceptChar '\\', .acceptChar 'u', .acceptChar '[', .moveTo 1, .peek,
    .moveTo 4] (.ofText "\\u\x7b41\x7d")).1 =
      [.flag true, .flag true, .flag false, .flag true, .element (some 'u'), .flag false] :=
  rfl

end Scannerless.Text
