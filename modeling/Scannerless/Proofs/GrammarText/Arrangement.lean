import Mathlib.Data.List.TakeWhile
import Scannerless.Proofs.GrammarText.Phrases
import Scannerless.Proofs.GrammarText.Layout

/-!
# Arranged statements, tested

Whether a text is arranged out of given words, with blanks for layout, can be computed, and so can
whether statements use the words of the notation. The tests do not know comments, names in
brackets and actions that come with the notation.

## Main definitions

- `isArranged` — a text is arranged out of words, with blanks.
- `GrammarText.plainVocabulary` — the words of the notation that are tested for.

## Main statements

- `arranges_of_isArranged` — what passes the test is arranged.
- `GrammarText.plainVocabulary_within` — what passes the tests are words of the notation.
-/

namespace Scannerless

open Text

/-! ### Texts -/

/-- Whether words stand one behind the other, with blanks where they would not be told apart. -/
def standInRow : List String → List Char → Bool
  | [], cs => cs.isEmpty
  | w :: ws, cs =>
    w.toList.isPrefixOf cs &&
      (ws.isEmpty || !((cs.drop w.toList.length).takeWhile isBlank).isEmpty ||
        w.toList.head?.any (enclosures.map Prod.fst).contains) &&
      standInRow ws ((cs.drop w.toList.length).dropWhile isBlank)

/-- Whether a text is arranged out of words, with blanks. -/
def isArranged (ws : List String) (text : List Char) : Bool :=
  standInRow ws (text.dropWhile isBlank)

theorem isLayout_of_blank {gap : List Char} (h : ∀ c ∈ gap, isBlank c = true) : IsLayout gap := by
  induction gap with
  | nil => exact .nil
  | cons c gap ih =>
    rw [List.forall_mem_cons] at h
    exact .blank h.1 (ih h.2)

theorem laid_of_standInRow {ws : List String} {cs : List Char} (h : standInRow ws cs = true) :
    Laid ws cs := by
  induction ws generalizing cs with
  | nil =>
    obtain rfl := List.isEmpty_iff.mp h
    exact .nil
  | cons w ws ih =>
    simp only [standInRow, Bool.and_eq_true, Bool.or_eq_true, Bool.not_eq_true',
      List.isEmpty_iff, List.isEmpty_eq_false_iff, Option.any_eq_true, List.contains_iff_mem,
      List.isPrefixOf_iff_prefix] at h
    obtain ⟨⟨⟨rest, rfl⟩, hsep⟩, hrest⟩ := h
    rw [List.drop_left] at hsep hrest
    have hlaid := Laid.cons (isLayout_of_blank fun c hc => List.mem_takeWhile_imp hc)
      (fun hne => hsep.imp_left (Or.resolve_left · hne)) (ih hrest)
    rwa [List.takeWhile_append_dropWhile] at hlaid

theorem arranges_of_isArranged {ws : List String} {text : List Char}
    (h : isArranged ws text = true) : Arranges ws text :=
  ⟨text.takeWhile isBlank, text.dropWhile isBlank,
    isLayout_of_blank fun _ hc => List.mem_takeWhile_imp hc, laid_of_standInRow h,
    List.takeWhile_append_dropWhile.symm⟩

/-! ### Statements -/

section

variable (v : Vocabulary) [DecidablePred v.symbol] [DecidablePred v.element]
  [DecidablePred v.name] [DecidablePred v.value]

instance : DecidablePred (RhsItem.In v) :=
  fun i => inferInstanceAs (Decidable (v.element i.element))

instance : DecidablePred (Adverb.In v) :=
  fun _ => inferInstanceAs (Decidable (_ ∧ _))

instance : DecidablePred (Alternative.In v) :=
  fun _ => inferInstanceAs (Decidable (_ ∧ _))

instance : DecidablePred (AlternativesIn v) :=
  fun _ => inferInstanceAs (Decidable (_ ∧ _))

instance : DecidablePred (TiersIn v) :=
  fun _ => inferInstanceAs (Decidable (_ ∧ _))

instance : DecidablePred (Statement.In v)
  | .start symbol _ => inferInstanceAs (Decidable (v.symbol symbol))
  | .default adverbs _ | .lexemeDefault adverbs _ =>
    inferInstanceAs (Decidable (∀ a ∈ adverbs, a.In v))
  | .discard element _ => inferInstanceAs (Decidable (v.element element))
  | .structural _ _ _ => inferInstanceAs (Decidable (_ ∧ _))
  | .lexical _ _ _ => inferInstanceAs (Decidable (_ ∧ _))

end

namespace GrammarText

def isBareName (w : String) : Bool :=
  w.toList.head?.any (fun c => c.isAlpha || c == '_') &&
    w.toList.tail.all fun c => c.isAlphanum || c == '_'

/-- Whether a text is a number without a sign. -/
def isNatural (w : String) : Bool :=
  !w.toList.isEmpty && w.toList.all Char.isDigit

/-- Whether a text goes up to the first character that ends it. -/
def endsWith (stop : Char) : List Char → Bool
  | [] => false
  | [c] => c == stop
  | c :: d :: cs =>
    if c == '\\' then d != '\n' && endsWith stop cs
    else c != stop && c != '\n' && endsWith stop (d :: cs)

def isLiteral (w : String) : Bool :=
  w.toList.head?.any fun q => (q == '\'' || q == '"') && endsWith q w.toList.tail

def isClass (w : String) : Bool :=
  w.toList.head? == some '[' && w.toList.tail != [']'] && endsWith ']' w.toList.tail

/-- The words of the notation that are tested for. -/
def plainVocabulary : Vocabulary where
  symbol w := isBareName w = true
  element w := (isBareName w || isLiteral w || isClass w) = true
  name w := isBareName w = true
  value w := (isBareName w || isNatural w) = true

instance : DecidablePred plainVocabulary.symbol :=
  fun _ => inferInstanceAs (Decidable (_ = true))

instance : DecidablePred plainVocabulary.element :=
  fun _ => inferInstanceAs (Decidable (_ = true))

instance : DecidablePred plainVocabulary.name :=
  fun _ => inferInstanceAs (Decidable (_ = true))

instance : DecidablePred plainVocabulary.value :=
  fun _ => inferInstanceAs (Decidable (_ = true))

theorem exists_units {stop : Char} {cs : List Char} (h : endsWith stop cs = true) :
    ∃ units : List (List Char), cs = units.flatten ++ [stop] ∧ ∀ u ∈ units, IsUnit stop u := by
  fun_induction endsWith stop cs with
  | case1 => cases h
  | case2 c =>
    obtain rfl := eq_of_beq h
    exact ⟨[], rfl, List.forall_mem_nil _⟩
  | case3 c d cs hc ih =>
    rw [Bool.and_eq_true, bne_iff_ne] at h
    obtain rfl := eq_of_beq hc
    obtain ⟨units, rfl, hunits⟩ := ih h.2
    exact ⟨['\\', d] :: units, rfl, List.forall_mem_cons.mpr ⟨Or.inr ⟨d, rfl, h.1⟩, hunits⟩⟩
  | case4 c d cs hc ih =>
    simp only [Bool.and_eq_true, bne_iff_ne] at h
    obtain ⟨units, hcs, hunits⟩ := ih h.2
    refine ⟨[c] :: units, ?_, List.forall_mem_cons.mpr ⟨Or.inl ⟨c, rfl, h.1.1, ?_, h.1.2⟩, hunits⟩⟩
    · rw [hcs]
      rfl
    · rintro rfl
      exact hc rfl

theorem isTokenOf_of_isBareName {w : String} (h : isBareName w = true) :
    IsTokenOf ["bare_name"] w := by
  rw [isBareName, Bool.and_eq_true, Option.any_eq_true, List.all_eq_true] at h
  obtain ⟨⟨c, hhead, hc⟩, hall⟩ := h
  obtain ⟨cs, hcs⟩ := List.head?_eq_some_iff.mp hhead
  refine ⟨_, List.mem_singleton_self _, mem_bareName_iff.mpr ⟨c, cs, hcs, hc, ?_⟩⟩
  rwa [hcs] at hall

theorem isTokenOf_of_isNatural {w : String} (h : isNatural w = true) :
    IsTokenOf ["integer"] w := by
  simp only [isNatural, Bool.and_eq_true, Bool.not_eq_true', List.isEmpty_eq_false_iff,
    List.all_eq_true] at h
  exact ⟨_, List.mem_singleton_self _,
    mem_integer_iff.mpr ⟨[], w.toList, rfl, Or.inl rfl, h.1, h.2⟩⟩

theorem isTokenOf_of_isLiteral {w : String} (h : isLiteral w = true) :
    IsTokenOf ["literal"] w := by
  simp only [isLiteral, Option.any_eq_true, Bool.and_eq_true, Bool.or_eq_true, beq_iff_eq] at h
  obtain ⟨q, hhead, hq, hends⟩ := h
  obtain ⟨cs, hcs⟩ := List.head?_eq_some_iff.mp hhead
  rw [hcs] at hends
  obtain ⟨units, hunits, hall⟩ := exists_units hends
  refine ⟨_, List.mem_singleton_self _, mem_literal_iff.mpr ⟨q, hq, units, ?_, hall⟩⟩
  rw [hcs, List.cons_append, ← hunits, List.tail_cons]

theorem isTokenOf_of_isClass {w : String} (h : isClass w = true) :
    IsTokenOf ["char_class"] w := by
  simp only [isClass, Bool.and_eq_true, beq_iff_eq, bne_iff_ne] at h
  obtain ⟨⟨hhead, hne⟩, hends⟩ := h
  obtain ⟨cs, hcs⟩ := List.head?_eq_some_iff.mp hhead
  rw [hcs] at hne hends
  obtain ⟨units, hunits, hall⟩ := exists_units hends
  refine ⟨_, List.mem_singleton_self _, mem_charClass_iff.mpr ⟨units, ?_, ?_, hall⟩⟩
  · rw [hcs, List.cons_append, ← hunits, List.tail_cons]
  · rintro rfl
    exact hne hunits

/-- What passes the tests are words of the notation. -/
theorem plainVocabulary_within : plainVocabulary.Within vocabulary where
  symbol _ h := (isTokenOf_of_isBareName h).mono (by decide)
  element w h := by
    rcases Bool.or_eq_true_iff.mp h with h | h
    · rcases Bool.or_eq_true_iff.mp h with h | h
      · exact (isTokenOf_of_isBareName h).mono (by decide)
      · exact (isTokenOf_of_isLiteral h).mono (by decide)
    · exact (isTokenOf_of_isClass h).mono (by decide)
  name _ h := isTokenOf_of_isBareName h
  value w h := by
    rcases Bool.or_eq_true_iff.mp h with h | h
    · exact (isTokenOf_of_isBareName h).mono (by decide)
    · exact (isTokenOf_of_isNatural h).mono (by decide)

end GrammarText

end Scannerless
