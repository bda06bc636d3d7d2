import Mathlib.Data.List.Induction
import Mathlib.Data.List.TakeWhile
import Scannerless.Text.Position

/-!
# Places in lines

A place of a text stands in a line: that of the last newline in front of it, up to the first one
behind it. It is told by the number of newlines in front of it and the number of characters between
the last one and the place.

## Main definitions

- `StandsAlone` — a part of a text is one of its lines.

## Main statements

- `findSlot_lineStarts_ne` — the search for a line never ends in front of the first one.
- `StandsAlone.getElem?_splitOn` — lines are what the text is split into.
- `StandsAlone.locate_eq` — the location of a place.
- `StandsAlone.lineText?_eq` — the text of a line.
- `exists_standsAlone` — every place stands in a line.
- `exists_line_of_locate` — the location of a place is one in a line of the text.
-/

namespace Scannerless.Text

/-- A part of a text is a line: it has no newline itself, but there is one in front of it unless it
    is at the start, and one behind it unless it is at the end. -/
structure StandsAlone (front line rest : List Char) : Prop where
  notMem : '\n' ∉ line
  front : front = [] ∨ ∃ f, front = f ++ ['\n']
  rest : rest = [] ∨ ∃ r, rest = '\n' :: r

/-! ### Starts of lines -/

theorem startsAfterNewlines_append (n : Nat) (a b : List Char) :
    startsAfterNewlines n (a ++ b) =
      startsAfterNewlines n a ++ startsAfterNewlines (n + byteLength a) b := by
  induction a generalizing n with
  | nil => rfl
  | cons c a ih =>
    rw [List.cons_append, startsAfterNewlines, startsAfterNewlines, byteLength]
    split
    next h =>
      obtain rfl := eq_of_beq h
      have hsize : '\n'.utf8Size = 1 := rfl
      rw [ih, List.cons_append, hsize, Nat.add_assoc]
    next => rw [ih, Nat.add_assoc]

theorem startsAfterNewlines_eq_nil {n : Nat} {line : List Char} (h : '\n' ∉ line) :
    startsAfterNewlines n line = [] := by
  induction line generalizing n with
  | nil => rfl
  | cons c line ih =>
    rw [List.mem_cons, not_or] at h
    rw [startsAfterNewlines, if_neg (by simpa using Ne.symm h.1), ih h.2]

theorem length_startsAfterNewlines (n : Nat) (cs : List Char) :
    (startsAfterNewlines n cs).length = cs.count '\n' := by
  fun_induction startsAfterNewlines n cs with
  | case1 => rfl
  | case2 n c cs h ih => rw [List.length_cons, ih, eq_of_beq h, List.count_cons_self]
  | case3 n c cs h ih => rw [ih, List.count_cons_of_ne (by simpa using h)]

/-- A line starts behind what precedes its newline, and not behind the end of the text. -/
theorem mem_startsAfterNewlines {n m : Nat} {cs : List Char} (h : m ∈ startsAfterNewlines n cs) :
    n < m ∧ m ≤ n + byteLength cs := by
  induction cs generalizing n with
  | nil => cases h
  | cons c cs ih =>
    have hpos := c.utf8Size_pos
    rw [startsAfterNewlines] at h
    rw [byteLength]
    split at h
    · rcases List.mem_cons.mp h with rfl | h
      · omega
      · obtain ⟨hlt, hle⟩ := ih h
        omega
    · obtain ⟨hlt, hle⟩ := ih h
      omega

/-- Behind the places in front of a text none of its lines starts. -/
theorem takeWhile_startsAfterNewlines {n m : Nat} (h : m ≤ n) (cs : List Char) :
    (startsAfterNewlines n cs).takeWhile (· ≤ m) = [] := by
  cases hstarts : startsAfterNewlines n cs with
  | nil => rfl
  | cons k ks =>
    obtain ⟨hlt, -⟩ := mem_startsAfterNewlines (hstarts ▸ List.mem_cons_self : k ∈ _)
    exact List.takeWhile_cons_of_neg (by simpa using Nat.lt_of_le_of_lt h hlt)

/-- Lines start in the order in which they stand in the text. -/
theorem pairwise_startsAfterNewlines (n : Nat) (cs : List Char) :
    (startsAfterNewlines n cs).Pairwise (· < ·) := by
  fun_induction startsAfterNewlines n cs with
  | case1 => exact .nil
  | case2 n c cs h ih => exact .cons (fun m hm => (mem_startsAfterNewlines hm).1) ih
  | case3 n c cs h ih => exact ih

theorem length_lineStarts (cs : List Char) : (lineStarts cs).length = cs.count '\n' + 1 := by
  rw [lineStarts, List.length_cons, length_startsAfterNewlines]

theorem pairwise_lineStarts (cs : List Char) : (lineStarts cs).Pairwise (· < ·) :=
  .cons (fun _ hm => (mem_startsAfterNewlines hm).1) (pairwise_startsAfterNewlines 0 cs)

theorem splitOn_append_cons (a b : List Char) :
    (a ++ '\n' :: b).splitOn '\n' = a.splitOn '\n' ++ b.splitOn '\n' :=
  List.splitOnP_append_cons a b rfl

/-- There is one line more than there are newlines. -/
theorem length_splitOn (cs : List Char) : (cs.splitOn '\n').length = cs.count '\n' + 1 := by
  induction cs with
  | nil => rfl
  | cons c cs ih =>
    rw [List.splitOn, List.splitOnP_cons_eq_if_modifyHead, ← List.splitOn]
    split
    next h => rw [List.length_cons, ih, eq_of_beq h, List.count_cons_self]
    next h => rw [List.length_modifyHead, ih, List.count_cons_of_ne (by simpa using h)]

/-! ### Searching for a line -/

/-- In an ascending list, the entries up to a number are those below it, and then the number itself
    if it is one of them. -/
theorem length_takeWhile_le {entries : List Nat} (h : entries.Pairwise (· < ·)) (n : Nat) :
    (entries.takeWhile (· ≤ n)).length =
      (entries.takeWhile (· < n)).length +
        if entries[(entries.takeWhile (· < n)).length]? = some n then 1 else 0 := by
  induction h with
  | nil => rfl
  | @cons m entries hfirst _ ih =>
    rcases Nat.lt_trichotomy m n with hlt | rfl | hgt
    · have hle := Nat.le_of_lt hlt
      simp only [List.takeWhile_cons_of_pos, decide_eq_true_eq, hlt, hle, List.length_cons,
        List.getElem?_cons_succ, ih]
      omega
    · have hnone : entries.takeWhile (· ≤ m) = [] := by
        cases entries with
        | nil => rfl
        | cons k entries =>
          exact List.takeWhile_cons_of_neg (by simpa using hfirst k List.mem_cons_self)
      simp [hnone]
    · have hne := Nat.ne_of_gt hgt
      have hnot := Nat.not_le_of_gt hgt
      have hlt := Nat.not_lt_of_gt hgt
      simp [hne, hnot, hlt]

/-- What is found is the last of the entries up to a number, and what is missed stands behind
    them. -/
theorem findSlot_eq_or {entries : List Nat} (h : entries.Pairwise (· < ·)) (n : Nat) :
    (∃ i, findSlot entries n = .hit i ∧ (entries.takeWhile (· ≤ n)).length = i + 1) ∨
      ∃ i, findSlot entries n = .miss i ∧ (entries.takeWhile (· ≤ n)).length = i := by
  have hlength := length_takeWhile_le h n
  simp only [findSlot, beq_iff_eq]
  split
  next hfound => exact Or.inl ⟨_, rfl, by rw [hlength, if_pos hfound]⟩
  next hmissed => exact Or.inr ⟨_, rfl, by rw [hlength, if_neg hmissed, Nat.add_zero]⟩

/-- No offset is in front of the first line. -/
theorem takeWhile_lineStarts_pos (cs : List Char) (offset : Nat) :
    0 < ((lineStarts cs).takeWhile (· ≤ offset)).length := by
  rw [lineStarts, List.takeWhile_cons_of_pos (by simp)]
  exact Nat.succ_pos _

/-- The search never falls in front of the first line, so that there is a line in front of every
    start that it misses. -/
theorem findSlot_lineStarts_ne (cs : List Char) (offset : Nat) :
    findSlot (lineStarts cs) offset ≠ .miss 0 := by
  have hpos := takeWhile_lineStarts_pos cs offset
  rcases findSlot_eq_or (pairwise_lineStarts cs) offset with ⟨i, hslot, -⟩ | ⟨i, hslot, hlength⟩
  · rw [hslot]
    exact Slot.noConfusion
  · rw [hslot]
    intro hzero
    obtain rfl := Slot.miss.inj hzero
    exact Nat.ne_of_gt hpos hlength

/-- The line of an offset is the last one that starts there or in front of it. -/
theorem lineIndex_add_one (cs : List Char) (offset : Nat) :
    lineIndex (lineStarts cs) offset + 1 =
      ((lineStarts cs).takeWhile (· ≤ offset)).length := by
  have hpos := takeWhile_lineStarts_pos cs offset
  rcases findSlot_eq_or (pairwise_lineStarts cs) offset with
    ⟨i, hslot, hlength⟩ | ⟨i, hslot, hlength⟩
  · rw [lineIndex, hslot, hlength]
  · rw [lineIndex, hslot]
    simp only
    omega

/-- The line of an offset is one of the text. -/
theorem lineIndex_lt (cs : List Char) (offset : Nat) :
    lineIndex (lineStarts cs) offset < (lineStarts cs).length := by
  rw [← Nat.add_one_le_iff, lineIndex_add_one]
  exact (List.takeWhile_prefix _).length_le

namespace StandsAlone

variable {front line rest before after : List Char}

/-- The line starts behind what is in front of it. -/
theorem getLast_starts (h : StandsAlone front line rest) :
    (lineStarts front).getLast? = some (byteLength front) := by
  rcases h.front with rfl | ⟨f, rfl⟩
  · rfl
  · have hsize : byteLength ['\n'] = 1 := rfl
    rw [lineStarts, startsAfterNewlines_append, ← List.cons_append, Nat.zero_add,
      byteLength_append, hsize]
    exact List.getLast?_concat

theorem lineStarts_eq (h : StandsAlone front line rest) :
    lineStarts (front ++ (line ++ rest)) =
      lineStarts front ++ startsAfterNewlines (byteLength (front ++ line)) rest := by
  rw [lineStarts, ← List.append_assoc, startsAfterNewlines_append, startsAfterNewlines_append,
    startsAfterNewlines_eq_nil h.notMem, List.append_nil, Nat.zero_add]
  rfl

/-- The start of the line is the one whose number is that of the newlines in front of it. -/
theorem getElem?_lineStarts (h : StandsAlone front line rest) :
    (lineStarts (front ++ (line ++ rest)))[front.count '\n']? = some (byteLength front) := by
  have hlength := length_lineStarts front
  rw [h.lineStarts_eq, List.getElem?_append_left (by omega), ← h.getLast_starts,
    List.getLast?_eq_getElem?, hlength, Nat.add_sub_cancel]

/-- Of the lines of a text, it is the one whose number is that of the newlines in front of it. -/
theorem getElem?_splitOn (h : StandsAlone front line rest) :
    ((front ++ (line ++ rest)).splitOn '\n')[front.count '\n']? = some line := by
  have hfirst : ((line ++ rest).splitOn '\n')[0]? = some line := by
    rcases h.rest with rfl | ⟨r, rfl⟩
    · rw [List.append_nil, List.splitOn_eq_singleton h.notMem, List.getElem?_cons_zero]
    · rw [splitOn_append_cons, List.splitOn_eq_singleton h.notMem, List.singleton_append,
        List.getElem?_cons_zero]
  rcases h.front with rfl | ⟨f, rfl⟩
  · exact hfirst
  · have hcount : (f ++ ['\n']).count '\n' = (f.splitOn '\n').length := by
      rw [length_splitOn, List.count_append]
      rfl
    rw [hcount, List.append_assoc, List.singleton_append, splitOn_append_cons,
      List.getElem?_append_right (Nat.le_refl _), Nat.sub_self]
    exact hfirst

/-- A place in the line is found in it. -/
theorem lineIndex_eq (h : StandsAlone front (before ++ after) rest) :
    lineIndex (lineStarts (front ++ (before ++ after ++ rest))) (byteLength (front ++ before)) =
      front.count '\n' := by
  have hall : ∀ n ∈ lineStarts front, decide (n ≤ byteLength (front ++ before)) = true := by
    intro n hn
    rw [decide_eq_true_iff, byteLength_append]
    rcases List.mem_cons.mp hn with rfl | hn
    · exact Nat.zero_le _
    · have hle := (mem_startsAfterNewlines hn).2
      omega
  have hbehind : byteLength (front ++ before) ≤ byteLength (front ++ (before ++ after)) := by
    simp only [byteLength_append]
    omega
  have hnext := lineIndex_add_one (front ++ (before ++ after ++ rest))
    (byteLength (front ++ before))
  rw [h.lineStarts_eq, List.takeWhile_append_of_pos hall, takeWhile_startsAfterNewlines hbehind,
    List.append_nil, length_lineStarts, ← h.lineStarts_eq] at hnext
  exact Nat.add_right_cancel hnext

/-- The location of a place in a line. -/
theorem locate_eq (h : StandsAlone front (before ++ after) rest) :
    locate (front ++ (before ++ after ++ rest)) (byteLength (front ++ before)) =
      ⟨front.count '\n' + 1, before.length + 1⟩ := by
  have hle : byteLength (front ++ before) ≤ byteLength (front ++ (before ++ after ++ rest)) := by
    simp only [byteLength_append]
    omega
  have hslice : slice? (byteLength front) (byteLength (front ++ before))
      (front ++ (before ++ after ++ rest)) = some before := by
    rw [byteLength_append, List.append_assoc before, ← List.append_assoc]
    exact slice?_append front before (after ++ rest)
  simp only [locate, Nat.min_eq_left hle, h.lineIndex_eq, List.getD_eq_getElem?_getD,
    h.getElem?_lineStarts, Option.getD_some, hslice]

/-- The text of a line is the line without carriage returns at its end. -/
theorem lineText?_eq (h : StandsAlone front line rest) :
    lineText? (front ++ (line ++ rest)) (front.count '\n' + 1) =
      some (String.ofList (dropReturns line)) := by
  have hlength := length_lineStarts front
  have hstart := h.getElem?_lineStarts
  have hnext : (lineStarts (front ++ (line ++ rest)))[front.count '\n' + 1]? =
      (startsAfterNewlines (byteLength (front ++ line)) rest)[0]? := by
    rw [h.lineStarts_eq, List.getElem?_append_right (by omega), hlength, Nat.sub_self]
  have hslice : slice? (byteLength front) (byteLength (front ++ line)) (front ++ (line ++ rest)) =
      some line := by
    rw [byteLength_append, ← List.append_assoc]
    exact slice?_append front line rest
  rw [lineText?, hstart, hnext]
  -- The line stops at its newline or at the end of the text.
  rcases h.rest with rfl | ⟨r, rfl⟩
  · simp only [startsAfterNewlines, List.getElem?_nil]
    rw [List.append_nil] at hslice ⊢
    rw [hslice, Option.map_some]
  · simp only [startsAfterNewlines, beq_self_eq_true, if_true, List.getElem?_cons_zero,
      Nat.add_sub_cancel]
    rw [hslice, Option.map_some]

end StandsAlone

/-- Every place of a text stands in a line. -/
theorem exists_standsAlone (before after : List Char) :
    ∃ front back ahead rest, before = front ++ back ∧ after = ahead ++ rest ∧
      StandsAlone front (back ++ ahead) rest := by
  obtain ⟨front, back, hbefore, hback, hfront⟩ : ∃ front back, before = front ++ back ∧
      '\n' ∉ back ∧ (front = [] ∨ ∃ f, front = f ++ ['\n']) := by
    induction before using List.reverseRecOn with
    | nil => exact ⟨[], [], rfl, List.not_mem_nil, Or.inl rfl⟩
    | append_singleton before c ih =>
      by_cases hc : c = '\n'
      · exact ⟨before ++ [c], [], (List.append_nil _).symm, List.not_mem_nil,
          Or.inr ⟨before, by rw [hc]⟩⟩
      · obtain ⟨front, back, rfl, hback, hfront⟩ := ih
        refine ⟨front, back ++ [c], List.append_assoc _ _ _, ?_, hfront⟩
        simpa using ⟨hback, Ne.symm hc⟩
  obtain ⟨ahead, rest, hafter, hahead, hrest⟩ : ∃ ahead rest, after = ahead ++ rest ∧
      '\n' ∉ ahead ∧ (rest = [] ∨ ∃ r, rest = '\n' :: r) := by
    clear hbefore
    induction after with
    | nil => exact ⟨[], [], rfl, List.not_mem_nil, Or.inl rfl⟩
    | cons c after ih =>
      by_cases hc : c = '\n'
      · exact ⟨[], c :: after, rfl, List.not_mem_nil, Or.inr ⟨after, by rw [hc]⟩⟩
      · obtain ⟨ahead, rest, rfl, hahead, hrest⟩ := ih
        refine ⟨c :: ahead, rest, rfl, ?_, hrest⟩
        simpa using ⟨Ne.symm hc, hahead⟩
  refine ⟨front, back, ahead, rest, hbefore, hafter, ?_, hfront, hrest⟩
  rw [List.mem_append, not_or]
  exact ⟨hback, hahead⟩

/-- The location of a place of a text: its line is one of those that the text is split into, and its
    column is one in this line or follows the last character. -/
theorem exists_line_of_locate (before after : List Char) :
    ∃ location line, locate (before ++ after) (byteLength before) = location ∧
      (1 ≤ location.line ∧ location.line ≤ ((before ++ after).splitOn '\n').length) ∧
      ((before ++ after).splitOn '\n')[location.line - 1]? = some line ∧
      (1 ≤ location.column ∧ location.column ≤ line.length + 1) ∧
      lineText? (before ++ after) location.line = some (String.ofList (dropReturns line)) := by
  obtain ⟨front, back, ahead, rest, rfl, rfl, hline⟩ := exists_standsAlone before after
  have htext : front ++ back ++ (ahead ++ rest) = front ++ (back ++ ahead ++ rest) := by
    simp only [List.append_assoc]
  have hget := hline.getElem?_splitOn
  rw [htext]
  refine ⟨_, back ++ ahead, hline.locate_eq, ⟨Nat.le_add_left _ _, ?_⟩, hget,
    ⟨Nat.le_add_left _ _, ?_⟩, hline.lineText?_eq⟩
  · exact (List.getElem?_eq_some_iff.mp hget).1
  · rw [List.length_append]
    exact Nat.succ_le_succ (Nat.le_add_right _ _)

end Scannerless.Text
