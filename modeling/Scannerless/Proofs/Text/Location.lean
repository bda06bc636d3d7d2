import Mathlib.Data.List.DropRight
import Scannerless.Proofs.Text.Position

/-!
# Locations

The location of a place of a text counts the newlines in front of it, and the characters behind the
last of them. So the locations of a text are in the order of its places, line by line, and a text
has as many lines as there are newlines in it and one more.

## Main definitions

- `Location.Precedes` — a location is in front of another one.

## Main statements

- `locate_of_append` — the location of a place.
- `precedes_iff` — locations are in the order of the places.
- `lineText?_add_one` — the texts of the lines.
- `location_exact` — locations and lines of a text.
-/

namespace Scannerless.Text

/-- A location is in front of another one: in an earlier line, or in an earlier column of its
    line. -/
def Location.Precedes (a b : Location) : Prop :=
  a.line < b.line ∨ a.line = b.line ∧ a.column < b.column

/-! ### Places -/

variable {cs before after before' after' : List Char}

/-- An offset behind the end counts as the end. -/
theorem locate_min (cs : List Char) (offset : Nat) :
    locate cs (min offset (byteLength cs)) = locate cs offset := by
  rw [locate, locate, Nat.min_assoc, Nat.min_self]

/-- What stands behind the last newline goes on with a text that has none. -/
theorem rtakeWhile_append_of_notMem {part : List Char} (h : '\n' ∉ part) (before : List Char) :
    (before ++ part).rtakeWhile (· ≠ '\n') = before.rtakeWhile (· ≠ '\n') ++ part := by
  have hpart : ∀ c ∈ part.reverse, decide (c ≠ '\n') = true := by
    intro c hc
    rw [decide_eq_true_iff]
    rintro rfl
    exact h (List.mem_reverse.mp hc)
  rw [List.rtakeWhile, List.reverse_append, List.takeWhile_append_of_pos hpart,
    List.reverse_append, List.reverse_reverse, List.rtakeWhile]

namespace StandsAlone

variable {front back ahead rest : List Char}

theorem notMem_left (h : StandsAlone front (back ++ ahead) rest) : '\n' ∉ back :=
  fun hmem => h.notMem (List.mem_append_left ahead hmem)

/-- Up to a place of a line there are as many newlines as in front of the line. -/
theorem count_append (h : StandsAlone front (back ++ ahead) rest) :
    (front ++ back).count '\n' = front.count '\n' := by
  rw [List.count_append, List.count_eq_zero.mpr h.notMem_left, Nat.add_zero]

/-- What stands between the last newline and a place of a line is the line up to there. -/
theorem rtakeWhile_eq (h : StandsAlone front (back ++ ahead) rest) :
    (front ++ back).rtakeWhile (· ≠ '\n') = back := by
  rw [rtakeWhile_append_of_notMem h.notMem_left]
  rcases h.front with rfl | ⟨f, rfl⟩
  · simp
  · simp

end StandsAlone

/-- The location of a place counts the newlines in front of it and the characters behind the last
    one. -/
theorem locate_of_append (before after : List Char) :
    locate (before ++ after) (byteLength before) =
      ⟨1 + before.count '\n', 1 + (before.rtakeWhile (· ≠ '\n')).length⟩ := by
  obtain ⟨front, back, ahead, rest, rfl, rfl, hline⟩ := exists_standsAlone before after
  rw [hline.rtakeWhile_eq, hline.count_append, Nat.add_comm 1, Nat.add_comm 1, ← hline.locate_eq]
  simp only [List.append_assoc]

/-- Places with as many bytes in front of them are the same. -/
theorem eq_of_byteLength_eq (h : before ++ after = before' ++ after')
    (hlength : byteLength before = byteLength before') : before = before' := by
  have htake := takeBytes?_byteLength_append before after
  rw [h, hlength, takeBytes?_byteLength_append] at htake
  exact (Option.some.inj htake).symm

/-- Of two places the one with fewer bytes in front of it is in front of the other one. -/
theorem exists_append_of_byteLength_lt (h : before ++ after = before' ++ after')
    (hlt : byteLength before < byteLength before') :
    ∃ part, part ≠ [] ∧ before' = before ++ part := by
  have hprefix : before <+: before' := by
    have hcs : before <+: before' ++ after' := ⟨after, h⟩
    rcases List.prefix_or_prefix_of_prefix hcs (List.prefix_append before' after') with hle | hge
    · exact hle
    · obtain ⟨part, rfl⟩ := hge
      rw [byteLength_append] at hlt
      omega
  obtain ⟨part, rfl⟩ := hprefix
  refine ⟨part, ?_, rfl⟩
  rintro rfl
  rw [List.append_nil] at hlt
  exact Nat.lt_irrefl _ hlt

/-- A place behind another one has a location behind the other's. -/
theorem precedes_of_append {part : List Char} (hne : part ≠ []) (before after : List Char) :
    (locate (before ++ part ++ after) (byteLength before)).Precedes
      (locate (before ++ part ++ after) (byteLength (before ++ part))) := by
  rw [locate_of_append (before ++ part) after, List.append_assoc, locate_of_append before]
  by_cases hnewline : '\n' ∈ part
  · have hpos := List.count_pos_iff.mpr hnewline
    refine Or.inl ?_
    simp only [List.count_append]
    omega
  · have hpos := List.length_pos_iff.mpr hne
    have hnone := List.count_eq_zero.mpr hnewline
    refine Or.inr ?_
    simp only [List.count_append, hnone, rtakeWhile_append_of_notMem hnewline, List.length_append]
    omega

namespace Location

theorem Precedes.asymm {a b : Location} (h : a.Precedes b) : ¬b.Precedes a := by
  rw [Precedes] at h ⊢
  omega

theorem not_precedes_self (a : Location) : ¬a.Precedes a :=
  fun h => h.asymm h

end Location

/-- Locations are in the order of the places. -/
theorem precedes_iff (h : before ++ after = before' ++ after') :
    (locate (before ++ after) (byteLength before)).Precedes
        (locate (before ++ after) (byteLength before')) ↔
      byteLength before < byteLength before' := by
  have hforward {a b a' b' : List Char} (hsame : a ++ b = a' ++ b')
      (hlt : byteLength a < byteLength a') :
      (locate (a ++ b) (byteLength a)).Precedes (locate (a ++ b) (byteLength a')) := by
    obtain ⟨part, hne, rfl⟩ := exists_append_of_byteLength_lt hsame hlt
    rw [hsame]
    exact precedes_of_append hne a b'
  rcases Nat.lt_trichotomy (byteLength before) (byteLength before') with hlt | heq | hgt
  · exact iff_of_true (hforward h hlt) hlt
  · rw [heq]
    exact iff_of_false (Location.not_precedes_self _) (Nat.lt_irrefl _)
  · have hbehind := hforward h.symm hgt
    rw [← h] at hbehind
    exact iff_of_false hbehind.asymm (Nat.lt_asymm hgt)

/-- Different places have different locations. -/
theorem eq_of_locate_eq (h : before ++ after = before' ++ after')
    (hsame : locate (before ++ after) (byteLength before) =
      locate (before ++ after) (byteLength before')) : before = before' := by
  have hnot : ¬byteLength before < byteLength before' := by
    rw [← precedes_iff h, hsame]
    exact Location.not_precedes_self _
  have hnot' : ¬byteLength before' < byteLength before := by
    rw [← precedes_iff h.symm, ← h, hsame]
    exact Location.not_precedes_self _
  exact eq_of_byteLength_eq h (Nat.le_antisymm (Nat.le_of_not_lt hnot') (Nat.le_of_not_lt hnot))

/-! ### Lines -/

/-- A text has a place behind any number of its newlines. -/
theorem exists_count_eq {n : Nat} (h : n ≤ cs.count '\n') :
    ∃ before after, cs = before ++ after ∧ before.count '\n' = n := by
  induction cs generalizing n with
  | nil => exact ⟨[], [], rfl, (Nat.le_zero.mp h).symm⟩
  | cons c cs ih =>
    cases n with
    | zero => exact ⟨[], c :: cs, rfl, rfl⟩
    | succ n =>
      rw [List.count_cons] at h
      by_cases hc : c = '\n'
      · rw [if_pos (beq_iff_eq.mpr hc)] at h
        obtain ⟨before, after, rfl, hcount⟩ := ih (Nat.le_of_succ_le_succ h)
        refine ⟨c :: before, after, rfl, ?_⟩
        rw [hc, List.count_cons_self, hcount]
      · rw [if_neg (mt beq_iff_eq.mp hc), Nat.add_zero] at h
        obtain ⟨before, after, rfl, hcount⟩ := ih h
        refine ⟨c :: before, after, rfl, ?_⟩
        rw [List.count_cons_of_ne hc, hcount]

/-- There is a line behind any number of newlines of a text. -/
theorem exists_standsAlone_of_le {n : Nat} (h : n ≤ cs.count '\n') :
    ∃ front line rest, cs = front ++ (line ++ rest) ∧ StandsAlone front line rest ∧
      front.count '\n' = n := by
  obtain ⟨before, after, rfl, hcount⟩ := exists_count_eq h
  obtain ⟨front, back, ahead, rest, rfl, rfl, hline⟩ := exists_standsAlone before after
  rw [hline.count_append] at hcount
  exact ⟨front, back ++ ahead, rest, by simp only [List.append_assoc], hline, hcount⟩

theorem dropReturns_eq (cs : List Char) : dropReturns cs = cs.rdropWhile (· == '\r') :=
  rfl

/-- The text of a line is what the text is split into there, without carriage returns at its
    end. -/
theorem lineText?_add_one (cs : List Char) (n : Nat) :
    lineText? cs (n + 1) =
      (cs.splitOn '\n')[n]?.map fun line => String.ofList (line.rdropWhile (· == '\r')) := by
  rcases Nat.lt_or_ge (cs.count '\n') n with hlt | hle
  · have hnone : (lineStarts cs)[n]? = none := by
      rw [List.getElem?_eq_none_iff, length_lineStarts]
      exact hlt
    have hnone' : (cs.splitOn '\n')[n]? = none := by
      rw [List.getElem?_eq_none_iff, length_splitOn]
      exact hlt
    rw [lineText?, hnone, hnone', Option.map_none]
  · obtain ⟨front, line, rest, rfl, hline, rfl⟩ := exists_standsAlone_of_le hle
    rw [hline.lineText?_eq, hline.getElem?_splitOn, Option.map_some, dropReturns_eq]

theorem isSome_lineText?_iff (cs : List Char) (line : Nat) :
    (lineText? cs line).isSome = true ↔ 1 ≤ line ∧ line ≤ 1 + cs.count '\n' := by
  cases line with
  | zero => simp [lineText?]
  | succ n =>
    rw [lineText?_add_one, Option.isSome_map, isSome_getElem?, length_splitOn]
    omega

/-- The location of a place of a text counts the newlines in front of it, and the characters between
    the last of them or the start of the text and the place; an offset behind the end counts as the
    end. Locations are in the order of the places, so that different places have different ones. The
    search for the line of an offset never ends in front of the first line, and what it tells is a
    line of the text. The lines that have a text are those between one and the number of newlines
    and one, and their texts are what the text is split into at its newlines, without carriage
    returns at the end. -/
theorem location_exact (cs : List Char) :
    (∀ before after offset, cs = before ++ after →
      min offset (byteLength cs) = byteLength before →
        locate cs offset =
          ⟨1 + before.count '\n', 1 + (before.rtakeWhile (· ≠ '\n')).length⟩) ∧
    (∀ before after before' after', cs = before ++ after → cs = before' ++ after' →
      ((locate cs (byteLength before)).Precedes (locate cs (byteLength before')) ↔
        byteLength before < byteLength before') ∧
      (locate cs (byteLength before) = locate cs (byteLength before') → before = before')) ∧
    (∀ offset, findSlot (lineStarts cs) (min offset (byteLength cs)) ≠ .miss 0 ∧
      lineIndex (lineStarts cs) (min offset (byteLength cs)) < (lineStarts cs).length) ∧
    ∀ line,
      ((lineText? cs line).isSome = true ↔ 1 ≤ line ∧ line ≤ 1 + cs.count '\n') ∧
      (1 ≤ line → lineText? cs line = (cs.splitOn '\n')[line - 1]?.map fun text =>
        String.ofList (text.rdropWhile (· == '\r'))) := by
  refine ⟨?_, ?_, fun offset => ⟨findSlot_lineStarts_ne cs _, lineIndex_lt cs _⟩, fun line =>
    ⟨isSome_lineText?_iff cs line, fun hpos => ?_⟩⟩
  · rintro before after offset rfl hplace
    rw [← locate_min, hplace]
    exact locate_of_append before after
  · rintro before after before' after' rfl hcs
    exact ⟨precedes_iff hcs, eq_of_locate_eq hcs⟩
  · obtain ⟨n, rfl⟩ := Nat.exists_eq_add_of_le' hpos
    exact lineText?_add_one cs n

/-- A text with letters of two bytes, a carriage return in front of a newline and an empty line. The
    offset behind the empty line is a place of the last line, and so is any offset behind the end;
    the place between the carriage return and its newline has a location of its own; there is no
    fourth line. -/
theorem location_exact_returns :
    locate "λ\r\n\nü".toList 5 = ⟨3, 1⟩ ∧ locate "λ\r\n\nü".toList 100 = ⟨3, 2⟩ ∧
      (locate "λ\r\n\nü".toList 3).Precedes (locate "λ\r\n\nü".toList 4) ∧
      lineText? "λ\r\n\nü".toList 1 = some "λ" ∧ lineText? "λ\r\n\nü".toList 2 = some "" ∧
      lineText? "λ\r\n\nü".toList 4 = none := by
  obtain ⟨hlocate, horder, -, hlines⟩ := location_exact "λ\r\n\nü".toList
  have hcount : "λ\r\n\nü".toList.count '\n' = 2 := by decide
  refine ⟨(hlocate ['λ', '\r', '\n', '\n'] ['ü'] 5 rfl (by decide)).trans (by decide),
    (hlocate _ [] 100 (List.append_nil _).symm (by decide)).trans (by decide),
    (horder ['λ', '\r'] ['\n', '\n', 'ü'] ['λ', '\r', '\n'] ['\n', 'ü'] rfl rfl).1.mpr
      (by decide),
    ((hlines 1).2 (by decide)).trans (by decide), ((hlines 2).2 (by decide)).trans (by decide), ?_⟩
  rw [← Option.not_isSome_iff_eq_none, (hlines 4).1, hcount]
  decide

end Scannerless.Text
