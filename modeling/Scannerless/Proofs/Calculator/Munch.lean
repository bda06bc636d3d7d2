import Mathlib.Data.List.TakeWhile
import Scannerless.Proofs.Calculator.Expression
import Scannerless.Proofs.GrammarText.Shapes

/-!
# The longest tokens

Tokens are taken off the front of a text, the longest one at each place, with blanks between them.

## Main definitions

- `Calculator.front?` — the token that a text begins with.
- `Calculator.tokens?` — the tokens of a text.
- `Calculator.Token.Longest` — no token that stands at the same place goes further.
- `Calculator.Lays` — a text of tokens, each the longest one at its place.

## Main statements

- `Calculator.tokens?_eq_some_iff` — the tokens of a text are those that it lays out.
-/

namespace Scannerless.Calculator

open Text

/-! ### The token in front -/

/-- The number that a text begins with, whose first character is a digit. A point belongs to it if
    a digit is behind. -/
def numberText (cs : List Char) : List Char :=
  match cs.dropWhile Char.isDigit with
  | '.' :: rest =>
    if (rest.takeWhile Char.isDigit).isEmpty then cs.takeWhile Char.isDigit
    else cs.takeWhile Char.isDigit ++ '.' :: rest.takeWhile Char.isDigit
  | _ => cs.takeWhile Char.isDigit

/-- The token that a text begins with. -/
def front? : List Char → Option Token
  | [] => none
  | c :: cs =>
    if c.isDigit then some (.number (String.ofList (numberText (c :: cs))))
    else if isNameChar c then some (.name (String.ofList ((c :: cs).takeWhile isNameChar)))
    else if marks.contains c then some (.mark c)
    else none

/-- The tokens of a text, if there is nothing else but blanks in it. -/
def tokens? (cs : List Char) : Option (List Token) :=
  match hcs : cs.dropWhile isBlank with
  | [] => some []
  | c :: rest =>
    (front? (c :: rest)).bind fun t =>
      (tokens? (rest.drop (t.text.toList.length - 1))).map (t :: ·)
termination_by cs.length
decreasing_by
  have hle : (cs.dropWhile isBlank).length ≤ cs.length := (List.dropWhile_suffix _).length_le
  rw [hcs, List.length_cons] at hle
  rw [List.length_drop]
  omega

example : tokens? "1.5*sin (x2".toList = some [.number "1.5", .mark '*', .name "sin", .mark '(',
    .name "x", .number "2"] := by
  cbv

/-! ### Kinds of characters -/

theorem not_isNameChar_of_isDigit {c : Char} (h : c.isDigit = true) : isNameChar c = false := by
  have hrange : c.toNat ≤ 57 := by
    simp only [Char.isDigit, Bool.and_eq_true, decide_eq_true_eq, ge_iff_le,
      UInt32.le_iff_toNat_le] at h
    exact h.2
  rw [isNameChar, Bool.or_eq_false_iff]
  constructor
  · delta Char.isLower
    simp only [Bool.and_eq_false_iff, decide_eq_false_iff_not, ge_iff_le,
      UInt32.le_iff_toNat_le]
    left
    show ¬97 ≤ c.toNat
    omega
  · rw [beq_eq_false_iff_ne]
    rintro rfl
    exact absurd hrange (by decide)

theorem isBlank_of_isDigit {c : Char} (h : c.isDigit = true) : isBlank c = false :=
  (GrammarText.isVisible_of_isAlphanum (by simp [Char.isAlphanum, h])).isBlank_eq_false

theorem isBlank_of_isNameChar {c : Char} (h : isNameChar c = true) : isBlank c = false := by
  rcases Bool.or_eq_true_iff.mp h with hlower | hunderscore
  · exact (GrammarText.isVisible_of_isLower hlower).isBlank_eq_false
  · rw [eq_of_beq hunderscore]
    decide

theorem kind_of_mem_marks {c : Char} (h : c ∈ marks) :
    c.isDigit = false ∧ isNameChar c = false ∧ isBlank c = false ∧ c ≠ '.' := by
  have hall : (marks.all fun c => decide (c.isDigit = false ∧ isNameChar c = false ∧
      isBlank c = false ∧ c ≠ '.')) = true := by
    decide
  exact of_decide_eq_true (List.all_eq_true.mp hall c h)

/-- The text of a token begins with a character of its kind. -/
theorem Token.Proper.exists_cons {t : Token} (h : t.Proper) :
    ∃ c cs, t.text.toList = c :: cs ∧
      ((c.isDigit = true ∧ IsNumber (c :: cs) ∧ t = .number (String.ofList (c :: cs))) ∨
        (isNameChar c = true ∧ IsName (c :: cs) ∧ t = .name (String.ofList (c :: cs))) ∨
        (c ∈ marks ∧ cs = [] ∧ t = .mark c)) := by
  cases t with
  | number text =>
    have hnumber : IsNumber text.toList := h
    obtain ⟨whole, hne, hdigits, htext⟩ := id hnumber
    obtain ⟨c, whole, rfl⟩ := List.exists_cons_of_ne_nil hne
    have hcons : ∃ cs, text.toList = c :: cs := by
      rcases htext with htext | ⟨fraction, -, -, htext⟩
      · exact ⟨_, htext⟩
      · exact ⟨_, htext⟩
    obtain ⟨cs, hcs⟩ := hcons
    refine ⟨c, cs, hcs, Or.inl ?_⟩
    rw [← hcs, String.ofList_toList]
    exact ⟨hdigits c List.mem_cons_self, hnumber, rfl⟩
  | name text =>
    have hname : IsName text.toList := h
    obtain ⟨c, cs, hcs⟩ := List.exists_cons_of_ne_nil hname.1
    refine ⟨c, cs, hcs, Or.inr (Or.inl ?_)⟩
    rw [← hcs, String.ofList_toList]
    exact ⟨hname.2 c (hcs ▸ List.mem_cons_self), hname, rfl⟩
  | mark c => exact ⟨c, [], String.toList_ofList, Or.inr (Or.inr ⟨h, rfl, rfl⟩)⟩

/-! ### The longest number -/

section

variable {cs text : List Char}

theorem numberText_of_point {rest : List Char} (h : cs.dropWhile Char.isDigit = '.' :: rest)
    (hne : rest.takeWhile Char.isDigit ≠ []) :
    numberText cs = cs.takeWhile Char.isDigit ++ '.' :: rest.takeWhile Char.isDigit := by
  simp only [numberText, h, List.isEmpty_iff, if_neg hne]

/-- There is a whole part, and a fraction if a point with a digit is behind. -/
theorem numberText_cases (cs : List Char) :
    numberText cs = cs.takeWhile Char.isDigit ∨
      ∃ rest, cs.dropWhile Char.isDigit = '.' :: rest ∧ rest.takeWhile Char.isDigit ≠ [] ∧
        numberText cs = cs.takeWhile Char.isDigit ++ '.' :: rest.takeWhile Char.isDigit := by
  unfold numberText
  split
  next rest hrest =>
    split
    · exact Or.inl rfl
    next hne => exact Or.inr ⟨rest, hrest, mt List.isEmpty_iff.mpr hne, rfl⟩
  next => exact Or.inl rfl

theorem takeWhile_prefix_numberText (cs : List Char) :
    cs.takeWhile Char.isDigit <+: numberText cs := by
  rcases numberText_cases cs with h | ⟨rest, -, -, h⟩
  · exact h ▸ List.prefix_rfl
  · exact h ▸ List.prefix_append _ _

theorem numberText_isPrefix (cs : List Char) : numberText cs <+: cs := by
  rcases numberText_cases cs with h | ⟨rest, hdrop, -, h⟩
  · exact h ▸ List.takeWhile_prefix _
  · have hprefix : cs.takeWhile Char.isDigit ++ '.' :: rest.takeWhile Char.isDigit <+:
        cs.takeWhile Char.isDigit ++ cs.dropWhile Char.isDigit := by
      rw [hdrop, List.prefix_append_right_inj, List.cons_prefix_cons]
      exact ⟨rfl, List.takeWhile_prefix _⟩
    rwa [List.takeWhile_append_dropWhile, ← h] at hprefix

theorem isNumber_numberText (h : cs.takeWhile Char.isDigit ≠ []) : IsNumber (numberText cs) := by
  refine ⟨_, h, fun c hc => List.mem_takeWhile_imp hc, ?_⟩
  rcases numberText_cases cs with h | ⟨rest, -, hne, h⟩
  · exact Or.inl h
  · exact Or.inr ⟨_, hne, fun c hc => List.mem_takeWhile_imp hc, h⟩

/-- No number in front goes further. -/
theorem IsNumber.prefix_numberText (h : IsNumber text) (rest : List Char) :
    text <+: numberText (text ++ rest) := by
  obtain ⟨whole, -, hwhole, rfl | ⟨fraction, hne, hfraction, rfl⟩⟩ := h
  · refine List.IsPrefix.trans ?_ (takeWhile_prefix_numberText _)
    rw [List.takeWhile_append_of_pos hwhole]
    exact List.prefix_append _ _
  · have hpoint : Char.isDigit '.' = false := by decide
    have htake : (whole ++ '.' :: fraction ++ rest).takeWhile Char.isDigit = whole := by
      simp [List.takeWhile_append_of_pos hwhole, hpoint]
    have hdrop : (whole ++ '.' :: fraction ++ rest).dropWhile Char.isDigit =
        '.' :: (fraction ++ rest) := by
      simp [List.dropWhile_append_of_pos hwhole, hpoint]
    have hprefix : fraction <+: (fraction ++ rest).takeWhile Char.isDigit := by
      rw [List.takeWhile_append_of_pos hfraction]
      exact List.prefix_append _ _
    rw [numberText_of_point hdrop (List.ne_nil_of_length_pos ?_), htake,
      List.prefix_append_right_inj, List.cons_prefix_cons]
    · exact ⟨rfl, hprefix⟩
    · exact Nat.lt_of_lt_of_le (List.length_pos_iff.mpr hne) hprefix.length_le

theorem numberText_eq_self (h : IsNumber text) : numberText text = text := by
  have hprefix := h.prefix_numberText []
  rw [List.append_nil] at hprefix
  exact (numberText_isPrefix text).eq_of_length_le hprefix.length_le

end

/-! ### The longest token -/

/-- No token that stands at the same place, with this text behind it, goes further. -/
def Token.Longest (t : Token) (rest : List Char) : Prop :=
  t.Proper ∧ ∀ t' rest', Token.Proper t' →
    t.text.toList ++ rest = t'.text.toList ++ rest' → t'.text.toList <+: t.text.toList

theorem proper_of_front? {cs : List Char} {t : Token} (h : front? cs = some t) :
    t.Proper ∧ t.text.toList <+: cs := by
  cases cs with
  | nil => cases h
  | cons c cs =>
    rw [front?] at h
    split at h
    next hc =>
      obtain rfl := Option.some_inj.mp h
      rw [Token.Proper, Token.text, String.toList_ofList]
      exact ⟨isNumber_numberText (by simp [hc]), numberText_isPrefix _⟩
    next =>
      split at h
      next hc =>
        obtain rfl := Option.some_inj.mp h
        rw [Token.Proper, Token.text, String.toList_ofList]
        exact ⟨⟨by simp [hc], fun d hd => List.mem_takeWhile_imp hd⟩, List.takeWhile_prefix _⟩
      next =>
        split at h
        next hc =>
          obtain rfl := Option.some_inj.mp h
          rw [Token.Proper, Token.text, String.toList_ofList]
          exact ⟨List.contains_iff_mem.mp hc, List.prefix_append [c] cs⟩
        next => cases h

/-- A token in front is looked for by its first character. -/
theorem front?_number {c : Char} (h : c.isDigit = true) (cs : List Char) :
    front? (c :: cs) = some (.number (String.ofList (numberText (c :: cs)))) := by
  rw [front?, if_pos h]

theorem front?_name {c : Char} (h : isNameChar c = true) (cs : List Char) :
    front? (c :: cs) = some (.name (String.ofList ((c :: cs).takeWhile isNameChar))) := by
  have hdigit : c.isDigit ≠ true := by
    intro hdigit
    rw [not_isNameChar_of_isDigit hdigit] at h
    cases h
  rw [front?, if_neg hdigit, if_pos h]

theorem front?_mark {c : Char} (h : c ∈ marks) (cs : List Char) :
    front? (c :: cs) = some (.mark c) := by
  obtain ⟨hdigit, hchar, -⟩ := kind_of_mem_marks h
  rw [front?, hdigit, hchar, if_neg Bool.false_ne_true, if_neg Bool.false_ne_true,
    if_pos (List.contains_iff_mem.mpr h)]

/-- Where a token stands, there is one in front that goes at least as far. -/
theorem Token.Proper.exists_front? {t : Token} (h : t.Proper) (rest : List Char) :
    ∃ t', front? (t.text.toList ++ rest) = some t' ∧ t.text.toList <+: t'.text.toList := by
  obtain ⟨c, cs, hc, ⟨hdigit, hnumber, -⟩ | ⟨hchar, hname, -⟩ | ⟨hmark, rfl, -⟩⟩ := h.exists_cons
  all_goals rw [hc, List.cons_append]
  · refine ⟨_, front?_number hdigit _, ?_⟩
    rw [Token.text, String.toList_ofList]
    exact hnumber.prefix_numberText rest
  · refine ⟨_, front?_name hchar _, ?_⟩
    rw [Token.text, String.toList_ofList, ← List.cons_append, List.takeWhile_append_of_pos hname.2]
    exact List.prefix_append _ _
  · refine ⟨_, front?_mark hmark _, ?_⟩
    rw [Token.text, String.toList_ofList]

/-- A token is told by its text. -/
theorem Token.Proper.front?_text {t : Token} (h : t.Proper) : front? t.text.toList = some t := by
  obtain ⟨c, cs, hc, ⟨hdigit, hnumber, ht⟩ | ⟨hchar, hname, ht⟩ | ⟨hmark, rfl, ht⟩⟩ :=
    h.exists_cons
  all_goals rw [hc, ht]
  · rw [front?_number hdigit, numberText_eq_self hnumber]
  · rw [front?_name hchar, List.takeWhile_eq_self_iff.mpr hname.2]
  · exact front?_mark hmark []

theorem Token.Proper.eq_of_text {t t' : Token} (h : t.Proper) (h' : t'.Proper)
    (htext : t.text.toList = t'.text.toList) : t = t' := by
  rw [← Option.some_inj, ← h.front?_text, ← h'.front?_text, htext]

/-- The token in front is the longest one. -/
theorem front?_eq_some_iff {cs : List Char} {t : Token} :
    front? cs = some t ↔ ∃ rest, cs = t.text.toList ++ rest ∧ t.Longest rest := by
  constructor
  · intro h
    obtain ⟨hproper, rest, rfl⟩ := proper_of_front? h
    refine ⟨rest, rfl, hproper, fun t' rest' hproper' htext => ?_⟩
    obtain ⟨t'', hfront, hprefix⟩ := hproper'.exists_front? rest'
    rw [← htext, h] at hfront
    obtain rfl := Option.some_inj.mp hfront
    exact hprefix
  · rintro ⟨rest, rfl, hproper, hlongest⟩
    obtain ⟨t', hfront, hprefix⟩ := hproper.exists_front? rest
    obtain ⟨hproper', rest', hrest⟩ := proper_of_front? hfront
    have hprefix' := hlongest t' rest' hproper' hrest.symm
    rw [hfront, hproper'.eq_of_text hproper (hprefix'.eq_of_length_le hprefix.length_le)]

/-! ### The tokens of a text -/

/-- A text of tokens with blanks around and between them, each the longest one at its place. -/
inductive Lays : List Token → List Char → Prop where
  | nil {gap : List Char} (hgap : ∀ c ∈ gap, isBlank c = true) : Lays [] gap
  | cons {t : Token} {ts : List Token} {gap rest : List Char}
    (hgap : ∀ c ∈ gap, isBlank c = true) (ht : t.Longest rest) (h : Lays ts rest) :
    Lays (t :: ts) (gap ++ (t.text.toList ++ rest))

theorem Lays.proper {ts : List Token} {cs : List Char} (h : Lays ts cs) :
    ∀ t ∈ ts, t.Proper := by
  induction h with
  | nil => exact List.forall_mem_nil _
  | cons _ ht _ ih => exact List.forall_mem_cons.mpr ⟨ht.1, ih⟩

theorem Token.Proper.isBlank_head {t : Token} (h : t.Proper) (rest : List Char) :
    ∀ c ∈ (t.text.toList ++ rest).head?, isBlank c = false := by
  obtain ⟨c, cs, hc, hkind⟩ := h.exists_cons
  rw [hc, List.cons_append, List.head?_cons]
  intro d hd
  obtain rfl := Option.some_inj.mp hd
  rcases hkind with ⟨hdigit, -⟩ | ⟨hchar, -⟩ | ⟨hmark, -⟩
  · exact isBlank_of_isDigit hdigit
  · exact isBlank_of_isNameChar hchar
  · exact (kind_of_mem_marks hmark).2.2.1

/-- Behind blanks, the tokens begin with the longest one. -/
theorem tokens?_append {t : Token} {gap rest : List Char} (hgap : ∀ c ∈ gap, isBlank c = true)
    (ht : t.Longest rest) :
    tokens? (gap ++ (t.text.toList ++ rest)) = (tokens? rest).map (t :: ·) := by
  have hfront : front? (t.text.toList ++ rest) = some t := front?_eq_some_iff.mpr ⟨rest, rfl, ht⟩
  have hblank := ht.1.isBlank_head rest
  obtain ⟨c, cs, hc, -⟩ := ht.1.exists_cons
  have hdrop : (gap ++ (t.text.toList ++ rest)).dropWhile isBlank = c :: (cs ++ rest) := by
    rw [List.dropWhile_append_of_pos hgap, hc, List.cons_append, List.dropWhile_cons_of_neg]
    exact Bool.eq_false_iff.mp (hblank c (by rw [hc]; rfl))
  rw [tokens?]
  split
  next hnil => exact absurd (hdrop.symm.trans hnil) (List.cons_ne_nil _ _)
  next c' rest' hcons =>
    obtain ⟨rfl, rfl⟩ := List.cons.inj (hdrop.symm.trans hcons)
    rw [← List.cons_append, ← hc, hfront, Option.bind_some, hc, List.length_cons,
      Nat.add_sub_cancel, List.drop_left]

/-- The tokens of a text are those that it lays out. -/
theorem tokens?_eq_some_iff {cs : List Char} {ts : List Token} :
    tokens? cs = some ts ↔ Lays ts cs := by
  constructor
  · intro h
    fun_induction tokens? cs generalizing ts with
    | case1 cs hcs =>
      obtain rfl := Option.some_inj.mp h
      exact .nil (List.dropWhile_eq_nil_iff.mp hcs)
    | case2 cs c rest hcs ih =>
      obtain ⟨t, ht, h⟩ := Option.bind_eq_some_iff.mp h
      obtain ⟨us, hus, rfl⟩ := Option.map_eq_some_iff.mp h
      obtain ⟨after, hafter, hlongest⟩ := front?_eq_some_iff.mp ht
      obtain ⟨d, ds, hd, -⟩ := hlongest.1.exists_cons
      have hcs' : cs = cs.takeWhile isBlank ++ (t.text.toList ++ after) := by
        rw [← hafter, ← hcs, List.takeWhile_append_dropWhile]
      have hrest : rest.drop (t.text.toList.length - 1) = after := by
        rw [hd, List.cons_append] at hafter
        rw [(List.cons.inj hafter).2, hd, List.length_cons, Nat.add_sub_cancel, List.drop_left]
      have hlays := ih t hus
      rw [hrest] at hlays
      rw [hcs']
      exact .cons (fun c hc => List.mem_takeWhile_imp hc) hlongest hlays
  · intro h
    induction h with
    | nil hgap =>
      rw [tokens?]
      split
      next => rfl
      next hcons =>
        rw [List.dropWhile_eq_nil_iff.mpr hgap] at hcons
        cases hcons
    | cons hgap ht _ ih => rw [tokens?_append hgap ht, ih, Option.map_some]

end Scannerless.Calculator
