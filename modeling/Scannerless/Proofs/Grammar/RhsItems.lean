import Scannerless.Proofs.Text.Blank
import Scannerless.Statement

/-!
# Items of right sides

An item of a right side is an element, which a quantifier may follow. Its first and its last
character tell what is a quantifier and what is part of the element: a name ends in one of its
characters and an element in brackets or quotes in the character that closes it, whatever stands
in between.

## Main definitions

- `RhsItem.IsElement` — the spelling of an element.

## Main statements

- `RhsItem.parse_of_isElement`, `RhsItem.parse_of_quantifier` — an element without a quantifier and
  with one.
- `quantifier_exact` — both, with blanks around the item.
-/

namespace Scannerless

open Text

namespace RhsItem

/-- The characters that enclose an element. -/
def enclosures : List (Char × Char) :=
  [('<', '>'), ('\'', '\''), ('"', '"'), ('[', ']')]

/-- The spelling of an element: a name, or any text between two characters that enclose it. -/
inductive IsElement : List Char → Prop where
  | name {cs : List Char} (hne : cs ≠ []) (h : ∀ c ∈ cs, isAlphanumeric c = true ∨ c = '_') :
      IsElement cs
  | enclosed {start stop : Char} (h : (start, stop) ∈ enclosures) (body : List Char) :
      IsElement (start :: (body ++ [stop]))

/-- An element can end in a character that is no blank and no quantifier. -/
structure Closes (c : Char) : Prop where
  notBlank : isBlank c = false
  noQuantifier : Quantifier.ofChar? c = none
  ends : endsElement c = true

variable {cs before after : List Char} {c q : Char} {quantifier : Quantifier}

theorem ne_of_isNameChar {d : Char} (h : isNameChar c = true) (hd : isNameChar d = false) :
    c ≠ d := by
  rintro rfl
  rw [h] at hd
  cases hd

theorem closes_of_isNameChar (h : isNameChar c = true) : Closes c := by
  refine ⟨isBlank_eq_false_of_isNameChar h, ?_, by simp [endsElement, h]⟩
  unfold Quantifier.ofChar?
  split
  · exact absurd rfl (ne_of_isNameChar h (by decide : isNameChar '?' = false))
  · exact absurd rfl (ne_of_isNameChar h (by decide : isNameChar '*' = false))
  · exact absurd rfl (ne_of_isNameChar h (by decide : isNameChar '+' = false))
  · rfl

theorem closes_of_mem_enclosures {e : Char × Char} (h : e ∈ enclosures) : Closes e.2 := by
  have hall : ∀ e ∈ enclosures, isBlank e.2 = false ∧ Quantifier.ofChar? e.2 = none ∧
      endsElement e.2 = true := by
    decide
  obtain ⟨hblank, hquantifier, hends⟩ := hall e h
  exact ⟨hblank, hquantifier, hends⟩

namespace IsElement

/-- An element has a first character, which is no blank. -/
theorem exists_head? (h : IsElement cs) : ∃ c ∈ cs.head?, isBlank c = false := by
  cases h with
  | name hne h =>
    exact ⟨cs.head hne, List.head?_eq_some_head hne,
      isBlank_eq_false_of_isNameChar (isNameChar_iff.mpr (h _ (List.head_mem hne)))⟩
  | enclosed h body =>
    have hall : ∀ e ∈ enclosures, isBlank e.1 = false := by decide
    exact ⟨_, rfl, hall _ h⟩

/-- An element has a last character, in which elements can end. -/
theorem exists_getLast? (h : IsElement cs) : ∃ c ∈ cs.getLast?, Closes c := by
  cases h with
  | name hne h =>
    exact ⟨cs.getLast hne, List.getLast?_eq_some_getLast hne,
      closes_of_isNameChar (isNameChar_iff.mpr (h _ (List.getLast_mem hne)))⟩
  | @enclosed start stop h body =>
    refine ⟨stop, ?_, closes_of_mem_enclosures h⟩
    rw [← List.cons_append]
    exact List.getLast?_concat

/-- An element that begins with a quote ends with it. -/
theorem isOpenLiteral_eq_false (h : IsElement cs) : isOpenLiteral cs = false := by
  cases h with
  | name hne h =>
    obtain ⟨c, cs, rfl⟩ := List.exists_cons_of_ne_nil hne
    have hname : isNameChar c = true := isNameChar_iff.mpr (h c List.mem_cons_self)
    have hsingle : c ≠ '\'' := ne_of_isNameChar hname (by decide)
    have hdouble : c ≠ '"' := ne_of_isNameChar hname (by decide)
    simp [isOpenLiteral, hsingle, hdouble]
  | @enclosed start stop h body =>
    have hall : ∀ e ∈ enclosures, (e.1 == '\'' || e.1 == '"') = true → e.2 = e.1 := by decide
    have hsame := hall _ h
    rw [isOpenLiteral, List.getLast?_concat, Bool.and_eq_false_imp]
    intro hquote
    simpa using hsame hquote

end IsElement

/-- An element without a quantifier. -/
theorem parse_of_isElement (h : IsElement cs) (hbefore : ∀ c ∈ before, isBlank c = true)
    (hafter : ∀ c ∈ after, isBlank c = true) :
    parse (String.ofList (before ++ (cs ++ after))) = ⟨String.ofList cs, .one, 0⟩ := by
  obtain ⟨first, hfirst, hblank⟩ := h.exists_head?
  obtain ⟨last, hlast, hcloses⟩ := h.exists_getLast?
  rw [Option.mem_def] at hfirst hlast
  have htrim : trimChars (before ++ (cs ++ after)) = cs :=
    trimChars_append hbefore hafter (by simpa [hfirst] using hblank)
      (by simpa [hlast] using hcloses.notBlank)
  simp only [parse, String.toList_ofList, htrim, hlast, Option.bind_some, hcloses.noQuantifier]

/-- An element with a quantifier behind it. -/
theorem parse_of_quantifier (h : IsElement cs) (hq : Quantifier.ofChar? q = some quantifier)
    (hblank : isBlank q = false) (hbefore : ∀ c ∈ before, isBlank c = true)
    (hafter : ∀ c ∈ after, isBlank c = true) :
    parse (String.ofList (before ++ (cs ++ q :: after))) =
      ⟨String.ofList cs, quantifier, 0⟩ := by
  obtain ⟨first, hfirst, hfirstBlank⟩ := h.exists_head?
  obtain ⟨last, hlast, hcloses⟩ := h.exists_getLast?
  rw [Option.mem_def] at hfirst hlast
  have htrim : trimChars (before ++ (cs ++ q :: after)) = cs ++ [q] := by
    have hitem : before ++ (cs ++ q :: after) = before ++ (cs ++ [q] ++ after) := by simp
    rw [hitem]
    refine trimChars_append hbefore hafter ?_ ?_
    · simpa [List.head?_append, hfirst] using hfirstBlank
    · simpa using hblank
  simp only [parse, String.toList_ofList, htrim, List.getLast?_concat, Option.bind_some, hq,
    List.dropLast_concat, hlast, Option.any_some, hcloses.ends, h.isOpenLiteral_eq_false,
    Bool.not_false, Bool.and_self, if_true]

end RhsItem

/-- An item that is an element, be it a name or any text in brackets or quotes, is read as this
    element, once. With a question mark, a star or a plus sign behind it, it is read as the same
    element with the quantifier of this sign. Blanks around the item change nothing. -/
theorem quantifier_exact {cs before after : List Char} (h : RhsItem.IsElement cs)
    (hbefore : ∀ c ∈ before, isBlank c = true) (hafter : ∀ c ∈ after, isBlank c = true) :
    RhsItem.parse (String.ofList (before ++ (cs ++ after))) = ⟨String.ofList cs, .one, 0⟩ ∧
    ∀ q quantifier, (q, quantifier) ∈
        [('?', Quantifier.optional), ('*', Quantifier.star), ('+', Quantifier.plus)] →
      RhsItem.parse (String.ofList (before ++ (cs ++ q :: after))) =
        ⟨String.ofList cs, quantifier, 0⟩ := by
  refine ⟨RhsItem.parse_of_isElement h hbefore hafter, fun q quantifier hmem => ?_⟩
  have hall : ∀ e ∈ [('?', Quantifier.optional), ('*', Quantifier.star), ('+', Quantifier.plus)],
      Quantifier.ofChar? e.1 = some e.2 ∧ isBlank e.1 = false := by
    decide
  obtain ⟨hq, hblank⟩ := hall _ hmem
  exact RhsItem.parse_of_quantifier h hq hblank hbefore hafter

/-- A literal with quantifiers, a quote of the other kind and a bracket in it, and a class that ends
    in a quantifier. -/
theorem quantifier_exact_signs :
    RhsItem.parse " '+\"]*'+\n" = ⟨"'+\"]*'", .plus, 0⟩ ∧
      RhsItem.parse "'+\"]*'" = ⟨"'+\"]*'", .one, 0⟩ ∧
      RhsItem.parse "[a-z'*]?" = ⟨"[a-z'*]", .optional, 0⟩ := by
  have hliteral : RhsItem.IsElement ['\'', '+', '"', ']', '*', '\''] :=
    .enclosed (by decide) ['+', '"', ']', '*']
  have hclass : RhsItem.IsElement ['[', 'a', '-', 'z', '\'', '*', ']'] :=
    .enclosed (by decide) ['a', '-', 'z', '\'', '*']
  have hblanks : ∀ c ∈ [' '], isBlank c = true := by simp [isBlank, blankRanges, inRanges]
  have hnewline : ∀ c ∈ ['\n'], isBlank c = true := by simp [isBlank, blankRanges, inRanges]
  have hnone : ∀ c ∈ ([] : List Char), isBlank c = true := by simp
  exact ⟨(quantifier_exact hliteral hblanks hnewline).2 '+' .plus (by decide),
    (quantifier_exact hliteral hnone hnone).1,
    (quantifier_exact hclass hnone hnone).2 '?' .optional (by decide)⟩

end Scannerless
