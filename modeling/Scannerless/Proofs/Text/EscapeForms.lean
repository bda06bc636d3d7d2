import Mathlib.Tactic.SplitIfs
import Scannerless.Text.Escape

/-!
# The forms of escapes

What may stand behind a backslash, and what it stands for there. This is a grammar of escapes
that does not mention how they are read. Reading accepts its words and nothing else.

## Main definitions

- `Escape.Form` — some characters behind a backslash stand for something.

## Main statements

- `Escape.Form.read` — what is a form is read, whatever comes after it.
- `Escape.exists_form` — what is read is a form.
-/

namespace Scannerless.Text

/-- What may stand behind a backslash, and what it stands for. -/
inductive Escape.Form : List Char → Escape → Prop where
  | newline : Form ['n'] (.char '\n')
  | carriageReturn : Form ['r'] (.char '\r')
  | tab : Form ['t'] (.char '\t')
  | zero : Form ['0'] (.char '\x00')
  | shorthand {letter : Char} (h : letter ∈ ['s', 'd', 'w', 'S', 'D', 'W']) :
      Form [letter] (.shorthand letter)
  /-- One to six digits to base sixteen in braces, which number a character. -/
  | codePoint {digits : List Char} {c : Char} (hdigits : ∀ d ∈ digits, isHexDigit d = true)
      (hne : digits ≠ []) (hlength : digits.length ≤ 6)
      (hc : scalar? (hexNumber digits) = some c) :
      Form ('u' :: '{' :: (digits ++ ['}'])) (.char c)
  /-- A character that is neither letter nor number. -/
  | symbol {c : Char} (h : isAlphanumeric c = false) : Form [c] (.char c)

namespace Escape

/-- Digits are read up to the first character that is none. -/
theorem readCodePoint_of_digits {digits : List Char} {c : Char}
    (hdigits : ∀ d ∈ digits, isHexDigit d = true) (hne : digits ≠ []) (hlength : digits.length ≤ 6)
    (hc : scalar? (hexNumber digits) = some c) (rest : List Char) :
    readCodePoint ('{' :: (digits ++ '}' :: rest)) = ⟨.ok (.char c), rest, false⟩ := by
  have hbrace : isHexDigit '}' = false := by decide
  have htake : (digits ++ '}' :: rest).takeWhile isHexDigit = digits := by
    rw [List.takeWhile_append_of_pos hdigits]
    simp [hbrace]
  have hdrop : (digits ++ '}' :: rest).dropWhile isHexDigit = '}' :: rest := by
    rw [List.dropWhile_append_of_pos hdigits]
    simp [hbrace]
  have hnonempty : digits.isEmpty = false := List.isEmpty_eq_false_iff.mpr hne
  have hshort : ¬digits.length > 6 := Nat.not_lt_of_le hlength
  simp only [readCodePoint, htake, hdrop, hnonempty, hshort, hc, decide_false, Bool.or_self,
    Bool.false_eq_true, if_false]

/-- What is read in braces are one to six digits that number a character. -/
theorem exists_codePoint {cs : List Char} {e : Escape} (h : (readCodePoint cs).outcome = .ok e) :
    ∃ digits c, (∀ d ∈ digits, isHexDigit d = true) ∧ digits ≠ [] ∧ digits.length ≤ 6 ∧
      scalar? (hexNumber digits) = some c ∧ e = .char c ∧
      cs = '{' :: (digits ++ '}' :: (readCodePoint cs).rest) := by
  unfold readCodePoint at h
  split at h
  next cs =>
    simp only at h
    split at h
    next rest hdrop =>
      split at h
      next => cases h
      next hdigits =>
        rw [Bool.not_eq_true, Bool.or_eq_false_iff, decide_eq_false_iff_not] at hdigits
        obtain ⟨hne, hlength⟩ := hdigits
        split at h
        next c hc =>
          have hcs : cs = cs.takeWhile isHexDigit ++ '}' :: rest := by
            rw [← hdrop, List.takeWhile_append_dropWhile]
          have hall : ∀ d ∈ cs.takeWhile isHexDigit, isHexDigit d = true :=
            List.all_eq_true.mp List.all_takeWhile
          have hnonempty := List.isEmpty_eq_false_iff.mp hne
          have hread := readCodePoint_of_digits hall hnonempty (Nat.le_of_not_lt hlength) hc rest
          rw [← hcs] at hread
          refine ⟨_, c, hall, hnonempty, Nat.le_of_not_lt hlength, hc, ?_, ?_⟩
          · exact (Except.ok.inj h).symm
          · rw [hread, ← hcs]
        next => cases h
    next => cases h
  next => cases h

/-- A character that is neither letter nor number is none of the letters of escapes. -/
theorem read_symbol {c : Char} (h : isAlphanumeric c = false) (rest : List Char) :
    read (c :: rest) = ⟨.ok (.char c), rest, false⟩ := by
  have hne (d : Char) (hd : isAlphanumeric d = true) : (c == d) = false := by
    rw [beq_eq_false_iff_ne]
    rintro rfl
    simp [hd] at h
  have hn := hne 'n' (by decide)
  have hr := hne 'r' (by decide)
  have ht := hne 't' (by decide)
  have hzero := hne '0' (by decide)
  have hu := hne 'u' (by decide)
  have hshort : ['s', 'd', 'w', 'S', 'D', 'W'].contains c = false := by
    simp only [List.contains_cons, List.contains_nil, hne 's' (by decide), hne 'd' (by decide),
      hne 'w' (by decide), hne 'S' (by decide), hne 'D' (by decide), hne 'W' (by decide),
      Bool.or_self]
  simp only [read, hn, hr, ht, hzero, hu, hshort, h, Bool.false_eq_true, if_false]

/-- What is a form is read, whatever comes after it. -/
theorem Form.read {written : List Char} {e : Escape} (h : Form written e) (rest : List Char) :
    Escape.read (written ++ rest) = ⟨.ok e, rest, false⟩ := by
  cases h with
  | newline | carriageReturn | tab | zero => rfl
  | shorthand h =>
    simp only [List.mem_cons, List.not_mem_nil, or_false] at h
    rcases h with rfl | rfl | rfl | rfl | rfl | rfl <;> rfl
  | codePoint hdigits hne hlength hc =>
    have hread := readCodePoint_of_digits hdigits hne hlength hc rest
    simpa [Escape.read] using hread
  | symbol h => exact read_symbol h rest

/-- What is read is a form. -/
theorem exists_form {cs : List Char} {e : Escape} (h : (read cs).outcome = .ok e) :
    ∃ written, Form written e ∧ cs = written ++ (read cs).rest := by
  have hform {written : List Char} (rest : List Char) (hwritten : Form written e)
      (hcs : cs = written ++ rest) :
      ∃ written, Form written e ∧ cs = written ++ (read cs).rest := by
    refine ⟨written, hwritten, ?_⟩
    rw [hcs, hwritten.read rest]
  cases cs with
  | nil => cases h
  | cons c cs =>
    rw [read] at h
    split_ifs at h with hn hr ht hzero hshort hu hknown
    · obtain rfl := eq_of_beq hn
      obtain rfl := Except.ok.inj h
      exact hform _ .newline rfl
    · obtain rfl := eq_of_beq hr
      obtain rfl := Except.ok.inj h
      exact hform _ .carriageReturn rfl
    · obtain rfl := eq_of_beq ht
      obtain rfl := Except.ok.inj h
      exact hform _ .tab rfl
    · obtain rfl := eq_of_beq hzero
      obtain rfl := Except.ok.inj h
      exact hform _ .zero rfl
    · obtain rfl := Except.ok.inj h
      exact hform _ (.shorthand (List.contains_iff_mem.mp hshort)) rfl
    · obtain rfl := eq_of_beq hu
      obtain ⟨digits, c, hdigits, hne, hlength, hc, rfl, hcs⟩ := exists_codePoint h
      refine hform (readCodePoint cs).rest (.codePoint hdigits hne hlength hc) ?_
      simpa using hcs
    · obtain rfl := Except.ok.inj h
      exact hform _ (.symbol (Bool.not_eq_true _ ▸ hknown)) rfl

end Escape

end Scannerless.Text
