import Mathlib.Data.List.TakeWhile
import Scannerless.Text.Alphanumeric
import Scannerless.Text.Blank

/-!
# Blanks around a text

The blanks around a text are taken away and nothing else. No character of a name is a blank.

## Main statements

- `trimChars_append` — what is left of a text with blanks around it.
- `isBlank_eq_false_of_isNameChar` — names have no blanks.
-/

namespace Scannerless.Text

/-! ### Blanks and names -/

/-- A character with a property is in one of the ranges of its table. -/
theorem exists_range_of_inRanges {ranges : List (Nat × Nat)} {c : Char}
    (h : inRanges ranges c = true) : ∃ r ∈ ranges, r.1 ≤ c.toNat ∧ c.toNat ≤ r.2 := by
  induction ranges with
  | nil => cases h
  | cons r ranges ih =>
    rw [inRanges] at h
    split at h
    next => cases h
    next hlow =>
      rcases Bool.or_eq_true_iff.mp h with hhigh | hrest
      · exact ⟨r, List.mem_cons_self, Nat.le_of_not_lt hlow, of_decide_eq_true hhigh⟩
      · obtain ⟨r', hr', hbounds⟩ := ih hrest
        exact ⟨r', List.mem_cons_of_mem r hr', hbounds⟩

set_option maxRecDepth 20000 in
/-- No range of blanks meets one of letters and numbers. -/
theorem blankRanges_apart : (blankRanges.all fun r => alphanumericRanges.all fun r' =>
    r.2 < r'.1 || r'.2 < r.1) = true := by
  decide

theorem isBlank_eq_false_of_isAlphanumeric {c : Char} (h : isAlphanumeric c = true) :
    isBlank c = false := by
  rw [Bool.eq_false_iff]
  intro hblank
  obtain ⟨r, hr, hlow, hhigh⟩ := exists_range_of_inRanges hblank
  obtain ⟨r', hr', hlow', hhigh'⟩ := exists_range_of_inRanges h
  have hapart := List.all_eq_true.mp (List.all_eq_true.mp blankRanges_apart r hr) r' hr'
  rw [Bool.or_eq_true, decide_eq_true_iff, decide_eq_true_iff] at hapart
  omega

theorem isBlank_eq_false_of_isNameChar {c : Char} (h : isNameChar c = true) :
    isBlank c = false := by
  rcases isNameChar_iff.mp h with hletter | rfl
  · exact isBlank_eq_false_of_isAlphanumeric hletter
  · decide

/-! ### Trimming -/

/-- Blanks are left out up to the first character that is none. -/
theorem dropWhile_isBlank_append {gap cs : List Char} (hgap : ∀ c ∈ gap, isBlank c = true)
    (hfirst : ∀ c ∈ cs.head?, isBlank c = false) : (gap ++ cs).dropWhile isBlank = cs := by
  rw [List.dropWhile_append_of_pos hgap]
  cases cs with
  | nil => rfl
  | cons c cs => rw [List.dropWhile_cons_of_neg (by simp [hfirst c rfl])]

/-- What is left of a text with blanks around it, if no blank is its first or its last
    character. -/
theorem trimChars_append {before cs after : List Char} (hbefore : ∀ c ∈ before, isBlank c = true)
    (hafter : ∀ c ∈ after, isBlank c = true) (hfirst : ∀ c ∈ cs.head?, isBlank c = false)
    (hlast : ∀ c ∈ cs.getLast?, isBlank c = false) : trimChars (before ++ (cs ++ after)) = cs := by
  cases cs with
  | nil =>
    have hall : ∀ c ∈ before ++ after, isBlank c = true := fun c hc =>
      (List.mem_append.mp hc).elim (hbefore c) (hafter c)
    have hnone : (before ++ after).dropWhile isBlank = [] := List.dropWhile_eq_nil_iff.mpr hall
    rw [trimChars, List.nil_append, hnone]
    rfl
  | cons c cs =>
    have hafter' : ∀ d ∈ after.reverse, isBlank d = true := fun d hd =>
      hafter d (List.mem_reverse.mp hd)
    have hhead : ∀ d ∈ (c :: cs ++ after).head?, isBlank d = false := hfirst
    rw [trimChars, dropWhile_isBlank_append hbefore hhead, List.reverse_append,
      dropWhile_isBlank_append hafter' (by rwa [List.head?_reverse]), List.reverse_reverse]

/-- A text stays as it is if no blank is its first or its last character. -/
theorem trimChars_eq_self {cs : List Char} (hfirst : ∀ c ∈ cs.head?, isBlank c = false)
    (hlast : ∀ c ∈ cs.getLast?, isBlank c = false) : trimChars cs = cs := by
  have hnone : ∀ c ∈ ([] : List Char), isBlank c = true := by simp
  have htrim := trimChars_append hnone hnone hfirst hlast
  rwa [List.nil_append, List.append_nil] at htrim

end Scannerless.Text
