import Mathlib.Data.Set.Lattice
import Mathlib.Order.BooleanAlgebra.Set
import Scannerless.CharClass
import Scannerless.Proofs.Outcomes
import Scannerless.Proofs.Text.EscapeForms

/-!
# The forms of character classes

What the body of a character class may be, and which characters it stands for. Its parts are
written one behind the other. A dash behind a character belongs to a range as long as anything
comes after it. Reading a class accepts these bodies and nothing else, and what it reads holds
the characters that the parts stand for.

## Main definitions

- `ClassItem.denoted` — the characters that a part stands for.
- `ClassAtom`, `ClassPart`, `ClassParts`, `ClassBody` — the grammar of bodies.

## Main statements

- `CharClass.readItems_eq_ok_iff` — the parts that are read are those that are written.
- `class_exact` — what is read of a body, and what it holds.
-/

namespace Scannerless

open Text

/-- The characters that a part of a class stands for. -/
def ClassItem.denoted : ClassItem → Set Char
  | .char x => {x}
  | .range low high => {c | low ≤ c ∧ c ≤ high}
  | .shorthand 's' => {c | isBlank c = true}
  | .shorthand 'S' => {c | isBlank c = true}ᶜ
  | .shorthand 'd' => {c | '0' ≤ c ∧ c ≤ '9'}
  | .shorthand 'D' => {c | '0' ≤ c ∧ c ≤ '9'}ᶜ
  | .shorthand 'w' => {c | isAlphanumeric c = true ∨ c = '_'}
  | .shorthand 'W' => {c | isAlphanumeric c = true ∨ c = '_'}ᶜ
  | .shorthand _ => ∅

/-- The characters that a class stands for: those of its parts, or all others. -/
def CharClass.denoted (cls : CharClass) : Set Char :=
  if cls.negated then (⋃ item ∈ cls.items, item.denoted)ᶜ else ⋃ item ∈ cls.items, item.denoted

/-! ### What is written -/

/-- A character as it is written in a class: as itself, or behind a backslash. -/
inductive ClassAtom : List Char → Char → Prop where
  | plain {c : Char} (h : c ≠ '\\') : ClassAtom [c] c
  | escaped {written : List Char} {c : Char} (h : Escape.Form written (.char c)) :
      ClassAtom ('\\' :: written) c

/-- A part of a class in front of what is left. -/
inductive ClassPart : List Char → ClassItem → List Char → Prop where
  | shorthand {letter : Char} {rest : List Char} (h : letter ∈ ['s', 'd', 'w', 'S', 'D', 'W']) :
      ClassPart ('\\' :: letter :: rest) (.shorthand letter) rest
  /-- A character that no dash with anything behind it follows. -/
  | char {written rest : List Char} {c : Char} (hc : ClassAtom written c)
      (hdash : ∀ d cs, rest ≠ '-' :: d :: cs) : ClassPart (written ++ rest) (.char c) rest
  | range {written written' rest : List Char} {low high : Char} (hlow : ClassAtom written low)
      (hhigh : ClassAtom written' high) (hle : low ≤ high) :
      ClassPart (written ++ '-' :: (written' ++ rest)) (.range low high) rest

/-- The parts of a class, one behind the other. -/
inductive ClassParts : List Char → List ClassItem → Prop where
  | nil : ClassParts [] []
  | cons {cs rest : List Char} {item : ClassItem} {items : List ClassItem}
      (hpart : ClassPart cs item rest) (hrest : ClassParts rest items) :
      ClassParts cs (item :: items)

/-- The body of a class: its parts, of which there is one at least, behind a caret if the
    class holds the other characters. -/
inductive ClassBody : List Char → Bool → List ClassItem → Prop where
  | plain {body : List Char} {items : List ClassItem} (hcaret : body.head? ≠ some '^')
      (hparts : ClassParts body items) (hne : items ≠ []) : ClassBody body false items
  | negated {body : List Char} {items : List ClassItem} (hparts : ClassParts body items)
      (hne : items ≠ []) : ClassBody ('^' :: body) true items

theorem ClassBody.parts {body : List Char} {negated : Bool} {items : List ClassItem}
    (h : ClassBody body negated items) : ∃ cs, ClassParts cs items := by
  cases h with
  | plain _ hparts | negated hparts => exact ⟨_, hparts⟩

theorem ClassAtom.length_pos {written : List Char} {c : Char} (h : ClassAtom written c) :
    0 < written.length := by
  cases h <;> simp

/-- A part takes a character at least. -/
theorem ClassPart.length_lt {cs rest : List Char} {item : ClassItem} (h : ClassPart cs item rest) :
    rest.length < cs.length := by
  cases h with
  | shorthand =>
    simp only [List.length_cons]
    omega
  | char hc =>
    have hpos := hc.length_pos
    simp only [List.length_append]
    omega
  | range hlow =>
    have hpos := hlow.length_pos
    simp only [List.length_append, List.length_cons]
    omega

namespace CharClass

/-! ### What is read -/

variable {total : Nat} {low high : Char} {cs rest : List Char} {item : ClassItem}

theorem rangeItem_eq_ok_iff :
    rangeItem total low high cs = .ok (item, rest) ↔
      low ≤ high ∧ item = .range low high ∧ rest = cs := by
  rw [rangeItem]
  split
  next hlt => exact iff_of_false (fun h => nomatch h) fun h => absurd h.1 (Char.not_le.mpr hlt)
  next hle =>
    rw [Except.ok.injEq, Prod.mk.injEq, eq_comm (a := item), eq_comm (a := rest)]
    exact (and_iff_right (Char.not_lt.mp hle)).symm

/-- Behind a character a range is read if a dash and anything else come next, and else the
    character alone. -/
theorem readUpper_eq_ok_iff :
    readUpper total low cs = .ok (item, rest) ↔
      (∃ written high, ClassAtom written high ∧ low ≤ high ∧ cs = '-' :: (written ++ rest) ∧
        item = .range low high) ∨
      (∀ d cs', cs ≠ '-' :: d :: cs') ∧ item = .char low ∧ cs = rest := by
  constructor
  · intro h
    unfold readUpper at h
    split at h
    next high cs =>
      left
      split at h
      next hescape =>
        obtain rfl := eq_of_beq hescape
        simp only at h
        split at h
        · cases h
        · cases h
        next high houtcome =>
          obtain ⟨hle, rfl, hrest⟩ := rangeItem_eq_ok_iff.mp h
          obtain ⟨written, hform, hcs⟩ := Escape.exists_form houtcome
          refine ⟨_, high, .escaped hform, hle, ?_, rfl⟩
          rw [hrest, List.cons_append, ← hcs]
      next hplain =>
        obtain ⟨hle, rfl, rfl⟩ := rangeItem_eq_ok_iff.mp h
        exact ⟨[high], high, .plain (by simpa using hplain), hle, rfl, rfl⟩
    next hdash =>
      obtain ⟨rfl, rfl⟩ := Prod.mk.inj (Except.ok.inj h)
      exact Or.inr ⟨fun d cs' => hdash d cs', rfl, rfl⟩
  · rintro (⟨written, high, hatom, hle, rfl, rfl⟩ | ⟨hdash, rfl, rfl⟩)
    · cases hatom with
      | plain hplain =>
        rw [List.singleton_append, readUpper, if_neg (by simpa using hplain)]
        exact rangeItem_eq_ok_iff.mpr ⟨hle, rfl, rfl⟩
      | escaped hform =>
        rw [List.cons_append, readUpper, if_pos (by rfl)]
        simp only [hform.read]
        exact rangeItem_eq_ok_iff.mpr ⟨hle, rfl, rfl⟩
    · unfold readUpper
      split
      next high cs => exact absurd rfl (hdash high cs)
      next => rfl

/-- Behind a character that is written in front, the part of the class is read. -/
theorem classPart_of_readUpper {written : List Char} (hlow : ClassAtom written low)
    (h : readUpper total low cs = .ok (item, rest)) : ClassPart (written ++ cs) item rest := by
  rcases readUpper_eq_ok_iff.mp h with ⟨written', high, hhigh, hle, rfl, rfl⟩ | ⟨hdash, rfl, rfl⟩
  · exact .range hlow hhigh hle
  · exact .char hlow hdash

theorem readItem_of_atom {c : Char} {written : List Char} (h : ClassAtom written low)
    (hcs : written ++ rest = c :: cs) : readItem total c cs = readUpper total low rest := by
  cases h with
  | plain hplain =>
    obtain ⟨rfl, rfl⟩ := List.cons.inj hcs
    rw [readItem, if_neg (by simpa using hplain)]
    rfl
  | @escaped written _ hform =>
    obtain ⟨rfl, rfl⟩ := List.cons.inj hcs
    have hread : Escape.read (written.append rest) = ⟨.ok (.char low), rest, false⟩ :=
      hform.read rest
    rw [readItem, if_pos (by rfl), hread]

theorem readItem_eq_ok_iff {c : Char} :
    readItem total c cs = .ok (item, rest) ↔ ClassPart (c :: cs) item rest := by
  constructor
  · intro h
    rw [readItem] at h
    split at h
    next hescape =>
      obtain rfl := eq_of_beq hescape
      simp only at h
      split at h
      · cases h
      next letter houtcome =>
        obtain ⟨rfl, rfl⟩ := Prod.mk.inj (Except.ok.inj h)
        obtain ⟨written, hform, hcs⟩ := Escape.exists_form houtcome
        cases hform with
        | shorthand hletter =>
          rw [List.singleton_append] at hcs
          have hpart : ClassPart ('\\' :: letter :: (Escape.read cs).rest) _ _ :=
            .shorthand hletter
          rwa [← hcs] at hpart
      next low houtcome =>
        obtain ⟨written, hform, hcs⟩ := Escape.exists_form houtcome
        have hpart := classPart_of_readUpper (.escaped hform) h
        rwa [List.cons_append, ← hcs] at hpart
    next hplain => exact classPart_of_readUpper (.plain (by simpa using hplain)) h
  · intro h
    generalize hwritten : c :: cs = written at h
    cases h with
    | shorthand hletter =>
      obtain ⟨rfl, rfl⟩ := List.cons.inj hwritten
      have hread := (Escape.Form.shorthand hletter).read rest
      rw [List.singleton_append] at hread
      rw [readItem, if_pos (by rfl), hread]
    | char hc hdash =>
      rw [readItem_of_atom hc hwritten.symm]
      exact readUpper_eq_ok_iff.mpr (Or.inr ⟨hdash, rfl, rfl⟩)
    | range hlow hhigh hle =>
      rw [readItem_of_atom hlow hwritten.symm]
      exact readUpper_eq_ok_iff.mpr (Or.inl ⟨_, _, hhigh, hle, rfl, rfl⟩)

/-- The parts that are read of a text are those that are written there. -/
theorem readItems_eq_ok_iff {fuel : Nat} {items : List ClassItem} (hfuel : cs.length ≤ fuel) :
    readItems total fuel cs = .ok items ↔ ClassParts cs items := by
  induction fuel generalizing cs items with
  | zero =>
    obtain rfl := List.length_eq_zero_iff.mp (Nat.le_zero.mp hfuel)
    constructor
    · intro h
      obtain rfl := Except.ok.inj h
      exact .nil
    · intro h
      cases h with
      | nil => rfl
      | cons hpart => exact absurd hpart.length_lt (Nat.not_lt_zero _)
  | succ fuel ih =>
    cases cs with
    | nil =>
      constructor
      · intro h
        obtain rfl := Except.ok.inj h
        exact .nil
      · intro h
        cases h with
        | nil => rfl
        | cons hpart => exact absurd hpart.length_lt (Nat.not_lt_zero _)
    | cons c cs =>
      constructor
      · intro h
        rw [readItems] at h
        split at h
        next => cases h
        next item rest hitem =>
          have hpart := readItem_eq_ok_iff.mp hitem
          obtain ⟨items', hitems', rfl⟩ := map_eq_ok_iff.mp h
          have hlt := hpart.length_lt
          exact .cons hpart ((ih (by omega)).mp hitems')
      · intro h
        cases h with
        | cons hpart hrest =>
          have hlt := hpart.length_lt
          rw [readItems, readItem_eq_ok_iff.mpr hpart]
          exact map_eq_ok_iff.mpr ⟨_, (ih (by omega)).mpr hrest, rfl⟩

/-! ### What is held -/

theorem isDigit_iff {c : Char} : c.isDigit = true ↔ '0' ≤ c ∧ c ≤ '9' := by
  rw [Char.isDigit, Bool.and_eq_true, decide_eq_true_iff, decide_eq_true_iff]
  rfl

/-- A part that can be written holds the characters that it stands for. -/
theorem matches_iff (h : ClassPart cs item rest) (c : Char) :
    item.matches c = true ↔ c ∈ item.denoted := by
  cases h with
  | char hc =>
    rw [ClassItem.matches, beq_iff_eq, ClassItem.denoted, Set.mem_singleton_iff, eq_comm]
  | range hlow =>
    rw [ClassItem.matches, Bool.and_eq_true, decide_eq_true_iff, decide_eq_true_iff]
    rfl
  | shorthand h =>
    simp only [List.mem_cons, List.not_mem_nil, or_false] at h
    -- A lower case letter asks whether a character is of a kind, and an upper case one whether
    -- it is not.
    rcases h with rfl | rfl | rfl | rfl | rfl | rfl
    · show (isBlank c == true) = true ↔ isBlank c = true
      simp
    · show (c.isDigit == true) = true ↔ '0' ≤ c ∧ c ≤ '9'
      simp [← isDigit_iff]
    · show (isNameChar c == true) = true ↔ isAlphanumeric c = true ∨ c = '_'
      simp [← isNameChar_iff]
    · show (isBlank c == false) = true ↔ ¬isBlank c = true
      simp
    · show (c.isDigit == false) = true ↔ ¬('0' ≤ c ∧ c ≤ '9')
      simp [← isDigit_iff]
    · show (isNameChar c == false) = true ↔ ¬(isAlphanumeric c = true ∨ c = '_')
      simp [← isNameChar_iff]

theorem any_matches_iff {items : List ClassItem} (h : ClassParts cs items) (c : Char) :
    items.any (·.matches c) = true ↔ c ∈ ⋃ item ∈ items, item.denoted := by
  induction h with
  | nil => simp
  | cons hpart _ ih =>
    rw [List.any_cons, Bool.or_eq_true, ih, matches_iff hpart]
    simp

/-- A class whose parts can be written holds the characters that it stands for. -/
theorem contains_iff {cls : CharClass} (h : ClassParts cs cls.items) (c : Char) :
    cls.contains c = true ↔ c ∈ cls.denoted := by
  rw [contains, denoted, bne_iff_ne]
  cases cls.negated with
  | false =>
    rw [if_neg Bool.false_ne_true, ← any_matches_iff h, ne_eq, Bool.not_eq_false]
  | true =>
    rw [if_pos rfl, Set.mem_compl_iff, ← any_matches_iff h]

/-! ### Whole bodies -/

/-- A body begins with a caret or it does not, and its parts are read behind it. -/
theorem exists_parse_eq (body : List Char) :
    ∃ negated rest, (∀ other items, ClassBody body other items ↔
        other = negated ∧ ClassParts rest items ∧ items ≠ []) ∧
      parse body =
        match readItems body.length rest.length rest with
        | .error e => .error e
        | .ok [] => .error ⟨.emptyClass, 0⟩
        | .ok items => .ok ⟨negated, items, "[" ++ String.ofList body ++ "]"⟩ := by
  by_cases hcaret : body.head? = some '^'
  · obtain ⟨rest, rfl⟩ := List.head?_eq_some_iff.mp hcaret
    refine ⟨true, rest, fun other items => ⟨?_, ?_⟩, rfl⟩
    · intro h
      cases h with
      | plain h => exact absurd rfl h
      | negated hparts hne => exact ⟨rfl, hparts, hne⟩
    · rintro ⟨rfl, hparts, hne⟩
      exact .negated hparts hne
  · refine ⟨false, body, fun other items => ⟨?_, ?_⟩, ?_⟩
    · intro h
      cases h with
      | plain _ hparts hne => exact ⟨rfl, hparts, hne⟩
      | negated => exact absurd rfl hcaret
    · rintro ⟨rfl, hparts, hne⟩
      exact .plain hcaret hparts hne
    · unfold parse
      split
      next negated rest hsplit =>
        split at hsplit
        next => exact absurd rfl hcaret
        next =>
          obtain ⟨rfl, rfl⟩ := Prod.mk.inj hsplit
          rfl

/-- The class that is read of a body has its parts, and is spelled as the body in brackets. -/
theorem parse_eq_ok_iff {body : List Char} {cls : CharClass} :
    parse body = .ok cls ↔ ∃ negated items, ClassBody body negated items ∧
      cls = ⟨negated, items, "[" ++ String.ofList body ++ "]"⟩ := by
  obtain ⟨negated, rest, hbody, hparse⟩ := exists_parse_eq body
  have hread (items : List ClassItem) :
      readItems body.length rest.length rest = .ok items ↔ ClassParts rest items :=
    readItems_eq_ok_iff (Nat.le_refl _)
  rw [hparse]
  constructor
  · intro h
    split at h
    next => cases h
    next => cases h
    next items hne hitems =>
      have hparts := (hread items).mp hitems
      refine ⟨negated, items, (hbody negated items).mpr ⟨rfl, hparts, ?_⟩, ?_⟩
      · rintro rfl
        exact hne rfl
      · exact (Except.ok.inj h).symm
  · rintro ⟨other, items, hother, rfl⟩
    obtain ⟨rfl, hparts, hne⟩ := (hbody other items).mp hother
    rw [(hread items).mpr hparts]
    split
    next h => cases h
    next h => exact absurd (Except.ok.inj h) hne
    next h =>
      obtain rfl := Except.ok.inj h
      rfl

end CharClass

/-- The body of a class is read if it is an optional caret and then parts, of which there is one
    at least: shorthands, characters, and ranges, which a dash behind a character begins as long
    as anything comes after it. The class holds the characters that one of the parts stands for,
    or all others behind a caret. So a caret in front turns a class into its complement, and so
    do the upper case letters of shorthands. -/
theorem class_exact (body : List Char) :
    (∀ cls, CharClass.parse body = .ok cls ↔ ∃ negated items, ClassBody body negated items ∧
      cls = ⟨negated, items, "[" ++ String.ofList body ++ "]"⟩) ∧
    (∀ cls, CharClass.parse body = .ok cls → {c | cls.contains c = true} = cls.denoted) ∧
    (∀ cls, CharClass.parse body = .ok cls → body.head? ≠ some '^' →
      ∃ cls', CharClass.parse ('^' :: body) = .ok cls' ∧
        {c | cls'.contains c = true} = {c | cls.contains c = true}ᶜ) ∧
    ∀ letter ∈ ['s', 'd', 'w'], ∃ lower upper,
      CharClass.parse ['\\', letter] = .ok lower ∧
      CharClass.parse ['\\', letter.toUpper] = .ok upper ∧
      {c | upper.contains c = true} = {c | lower.contains c = true}ᶜ := by
  have hholds {body : List Char} {cls : CharClass} (h : CharClass.parse body = .ok cls) :
      {c | cls.contains c = true} = cls.denoted := by
    obtain ⟨negated, items, hbody, rfl⟩ := CharClass.parse_eq_ok_iff.mp h
    obtain ⟨cs, hparts⟩ := hbody.parts
    exact Set.ext fun c => CharClass.contains_iff hparts c
  refine ⟨fun cls => CharClass.parse_eq_ok_iff, fun cls => hholds, fun cls h hcaret => ?_,
    fun letter hletter => ?_⟩
  · obtain ⟨negated, items, hbody, rfl⟩ := CharClass.parse_eq_ok_iff.mp h
    cases hbody with
    | negated => exact absurd rfl hcaret
    | plain _ hparts hne =>
      have hcomplement := CharClass.parse_eq_ok_iff.mpr ⟨true, items, .negated hparts hne, rfl⟩
      refine ⟨_, hcomplement, ?_⟩
      rw [hholds hcomplement, hholds h]
      rfl
  · have hshorthand (letter : Char) (hletter : letter ∈ ['s', 'd', 'w', 'S', 'D', 'W']) :
        ∃ cls, CharClass.parse ['\\', letter] = .ok cls ∧
          {c | cls.contains c = true} = (ClassItem.shorthand letter).denoted := by
      have hbody : ClassBody ['\\', letter] false [.shorthand letter] :=
        .plain (by simp) (.cons (.shorthand hletter) .nil) (by simp)
      have hparse := CharClass.parse_eq_ok_iff.mpr ⟨false, _, hbody, rfl⟩
      refine ⟨_, hparse, ?_⟩
      rw [hholds hparse, CharClass.denoted, if_neg Bool.false_ne_true]
      simp
    have hupper : letter.toUpper ∈ ['s', 'd', 'w', 'S', 'D', 'W'] ∧
        (ClassItem.shorthand letter.toUpper).denoted =
          (ClassItem.shorthand letter).denotedᶜ := by
      simp only [List.mem_cons, List.not_mem_nil, or_false] at hletter
      rcases hletter with rfl | rfl | rfl <;> exact ⟨by decide, rfl⟩
    obtain ⟨lower, hlower, hlowerHolds⟩ := hshorthand letter
      (List.mem_append_left ['S', 'D', 'W'] hletter)
    obtain ⟨upper, hupper', hupperHolds⟩ := hshorthand _ hupper.1
    refine ⟨lower, upper, hlower, hupper', ?_⟩
    rw [hupperHolds, hlowerHolds, hupper.2]

/-- A dash behind a shorthand or at the end is a character, and one behind an escaped dash makes
    a range. -/
theorem class_exact_dashes :
    ∃ cls, CharClass.parse "^\\d-\\--/x-".toList = .ok cls ∧
      ClassBody "^\\d-\\--/x-".toList true
        [.shorthand 'd', .char '-', .range '-' '/', .char 'x', .char '-'] ∧
      {c | cls.contains c = true} = ({c | '0' ≤ c ∧ c ≤ '9'} ∪ {c | '-' ≤ c ∧ c ≤ '/'} ∪ {'x'})ᶜ := by
  have hparse : CharClass.parse "^\\d-\\--/x-".toList =
      .ok ⟨true, [.shorthand 'd', .char '-', .range '-' '/', .char 'x', .char '-'],
        "[^\\d-\\--/x-]"⟩ := by
    decide
  obtain ⟨hread, hholds, -, -⟩ := class_exact "^\\d-\\--/x-".toList
  obtain ⟨negated, items, hbody, hcls⟩ := (hread _).mp hparse
  obtain ⟨rfl, rfl, -⟩ := CharClass.mk.inj hcls
  refine ⟨_, hparse, hbody, (hholds _ hparse).trans ?_⟩
  ext c
  have hdash : c = '-' → '-' ≤ c ∧ c ≤ '/' := by
    rintro rfl
    decide
  simp only [CharClass.denoted, ClassItem.denoted, if_true, Set.mem_compl_iff, Set.mem_union,
    Set.mem_iUnion, List.mem_cons, List.not_mem_nil, or_false, exists_prop, exists_eq_or_imp,
    exists_eq_left, Set.mem_singleton_iff, Set.mem_ofPred_eq]
  tauto

end Scannerless
