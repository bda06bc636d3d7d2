import Scannerless.GrammarText.Rules
import Scannerless.Proofs.Grammar.Denotation

/-!
# The tokens of the notation

What the lexical statements of the notation denote, in terms of characters.

## Main definitions

- `GrammarText.language` — what a name of the notation denotes.

## Main statements

- `GrammarText.mem_bareName_iff` and so on — the tokens by their characters.
-/

namespace Scannerless

open scoped Computability
open Text

/-! ### Languages of decoded items -/

/-- What an item stands for, if its spelling can be read, and how often. -/
def RhsItem.part (item : RhsItem) : Option Element × Quantifier :=
  ((Element.decode item.element).toOption, item.quantifier)

/-- What an item denotes, given what it stands for. -/
def partLanguage (names : String → Language Char) : Option Element × Quantifier → Language Char
  | (some e, q) => q.language (e.language names)
  | (none, _) => 0

theorem RhsItem.partLanguage_part (names : String → Language Char) (item : RhsItem) :
    partLanguage names item.part = item.language names := by
  rw [part, RhsItem.language]
  cases Element.decode item.element with
  | ok e => rfl
  | error cause => rfl

/-- The items of the alternatives of a lexical name. -/
def partsOf (ss : List Statement) (name : String) : List (List (Option Element × Quantifier)) :=
  (lexicalAlternatives ss name).map fun alt => alt.rhs.map RhsItem.part

/-- A name denotes what its items do. -/
theorem lexicalLanguage_of_parts {ss : List Statement} {name : String}
    {parts : List (List (Option Element × Quantifier))} (h : partsOf ss name = parts) :
    lexicalLanguage ss name =
      (parts.map fun ps => (ps.map (partLanguage (lexicalLanguage ss))).prod).sum := by
  rw [← h, lexicalLanguage_eq, declaredLanguage, partsOf, List.map_map]
  congr 2
  funext alt
  rw [Function.comp_apply, List.map_map, Alternative.language]
  congr 2
  funext item
  exact (item.partLanguage_part _).symm

namespace CharClass

variable {cls : CharClass} {text : List Char}

/-- Repeated, a class denotes the texts of its characters. -/
theorem mem_kstar_language : text ∈ cls.language∗ ↔ ∀ c ∈ text, cls.contains c = true := by
  rw [Language.mem_kstar]
  constructor
  · rintro ⟨words, rfl, h⟩ c hc
    obtain ⟨word, hword, hc⟩ := List.mem_flatten.mp hc
    obtain ⟨d, hd, rfl⟩ := h word hword
    exact List.mem_singleton.mp hc ▸ hd
  · intro h
    refine ⟨text.map fun c => [c], by simp [← List.flatMap_def], fun word hword => ?_⟩
    obtain ⟨c, hc, rfl⟩ := List.mem_map.mp hword
    exact ⟨c, h c hc, rfl⟩

theorem mem_plus_language :
    text ∈ cls.language * cls.language∗ ↔ text ≠ [] ∧ ∀ c ∈ text, cls.contains c = true := by
  rw [Language.mem_mul]
  constructor
  · rintro ⟨_, ⟨c, hc, rfl⟩, rest, hrest, rfl⟩
    exact ⟨by simp, List.forall_mem_cons.mpr ⟨hc, mem_kstar_language.mp hrest⟩⟩
  · rintro ⟨hne, h⟩
    obtain ⟨c, rest, rfl⟩ := List.exists_cons_of_ne_nil hne
    rw [List.forall_mem_cons] at h
    exact ⟨[c], ⟨c, h.1, rfl⟩, rest, mem_kstar_language.mpr h.2, rfl⟩

end CharClass

namespace GrammarText

/-- What a name of the notation denotes. -/
noncomputable def language (name : String) : Language Char :=
  lexicalLanguage statements name

/-- A class as an item. -/
def ofClass (items : List ClassItem) (spelling : String) (q : Quantifier) :
    Option Element × Quantifier :=
  (some (.terminal (.charClass ⟨false, items, spelling⟩)), q)

/-- The characters that are not in a class, as an item. -/
def ofOthers (items : List ClassItem) (spelling : String) (q : Quantifier) :
    Option Element × Quantifier :=
  (some (.terminal (.charClass ⟨true, items, spelling⟩)), q)

/-- A literal as an item. -/
def ofLiteral (text : List Char) : Option Element × Quantifier :=
  (some (.terminal (.literal text)), .one)

theorem language_of_parts {name : String} {parts : List (List (Option Element × Quantifier))}
    (h : partsOf statements name = parts) :
    language name = (parts.map fun ps => (ps.map (partLanguage language)).prod).sum :=
  lexicalLanguage_of_parts h

/-- The language of a list of items one behind the other, and that of two lists. -/
theorem language_of_items {name : String} {ps : List (Option Element × Quantifier)}
    (h : partsOf statements name = [ps]) :
    language name = (ps.map (partLanguage language)).prod := by
  rw [language_of_parts h, List.map_singleton, List.sum_singleton]

theorem language_of_two {name : String} {ps ps' : List (Option Element × Quantifier)}
    (h : partsOf statements name = [ps, ps']) :
    language name =
      (ps.map (partLanguage language)).prod + (ps'.map (partLanguage language)).prod := by
  rw [language_of_parts h, List.map_cons, List.map_singleton, List.sum_cons, List.sum_singleton]

/-! ### Names, actions, integers and quantifiers -/

theorem matches_lower (c : Char) : (ClassItem.range 'a' 'z').matches c = c.isLower :=
  rfl

theorem matches_upper (c : Char) : (ClassItem.range 'A' 'Z').matches c = c.isUpper :=
  (Bool.decide_and _ _).symm

theorem matches_digit (c : Char) : (ClassItem.range '0' '9').matches c = c.isDigit :=
  rfl

theorem matches_char (x c : Char) : (ClassItem.char x).matches c = (c == x) :=
  Bool.beq_comm

theorem isAlpha_eq (c : Char) : c.isAlpha = (c.isUpper || c.isLower) :=
  rfl

variable {text : List Char}

/-- A name begins with a letter or an underscore. -/
theorem mem_bareName_iff :
    text ∈ language "bare_name" ↔ ∃ c cs, text = c :: cs ∧
      (c.isAlpha || c == '_') = true ∧ ∀ d ∈ cs, (d.isAlphanum || d == '_') = true := by
  have h : partsOf statements "bare_name" =
      [[ofClass [.range 'a' 'z', .range 'A' 'Z', .char '_'] "[a-zA-Z_]" .one,
        ofClass [.range 'a' 'z', .range 'A' 'Z', .range '0' '9', .char '_'] "[a-zA-Z0-9_]"
          .star]] := by
    decide
  have hfirst (c : Char) : CharClass.contains
      ⟨false, [.range 'a' 'z', .range 'A' 'Z', .char '_'], "[a-zA-Z_]"⟩ c =
        (c.isAlpha || c == '_') := by
    simp [CharClass.contains, matches_lower, matches_upper, matches_char, isAlpha_eq,
      Bool.or_left_comm, Bool.or_assoc]
  have hrest (c : Char) : CharClass.contains
      ⟨false, [.range 'a' 'z', .range 'A' 'Z', .range '0' '9', .char '_'], "[a-zA-Z0-9_]"⟩ c =
        (c.isAlphanum || c == '_') := by
    simp [CharClass.contains, matches_lower, matches_upper, matches_digit, matches_char,
      isAlpha_eq, Char.isAlphanum, Bool.or_left_comm, Bool.or_assoc]
  rw [language_of_items h, List.map_cons, List.map_singleton, List.prod_cons, List.prod_singleton,
    Language.mem_mul]
  constructor
  · rintro ⟨_, ⟨c, hc, rfl⟩, cs, hcs, rfl⟩
    refine ⟨c, cs, rfl, hfirst c ▸ hc, fun d hd => ?_⟩
    rw [← hrest]
    exact CharClass.mem_kstar_language.mp hcs d hd
  · rintro ⟨c, cs, rfl, hc, hcs⟩
    refine ⟨[c], ⟨c, (hfirst c).trans hc, rfl⟩, cs, CharClass.mem_kstar_language.mpr ?_, rfl⟩
    exact fun d hd => (hrest d).trans (hcs d hd)

/-- A name in angle brackets goes up to the first closing one. -/
theorem mem_bracketedName_iff :
    text ∈ language "bracketed_name" ↔ ∃ body, text = '<' :: body ++ ['>'] ∧ body ≠ [] ∧
      ∀ c ∈ body, c ≠ '>' ∧ c ≠ '\n' := by
  have h : partsOf statements "bracketed_name" =
      [[ofLiteral ['<'], ofOthers [.char '>', .char '\n'] "[^>\\n]" .plus, ofLiteral ['>']]] := by
    decide
  have hbody (c : Char) : CharClass.contains
      ⟨true, [.char '>', .char '\n'], "[^>\\n]"⟩ c = true ↔ c ≠ '>' ∧ c ≠ '\n' := by
    simp [CharClass.contains, matches_char]
  rw [language_of_items h]
  simp only [List.map_cons, List.map_nil, List.prod_cons, List.prod_nil, mul_one,
    Language.mem_mul]
  constructor
  · rintro ⟨_, rfl, _, ⟨body, hmem, _, rfl, rfl⟩, rfl⟩
    obtain ⟨hne, hall⟩ := CharClass.mem_plus_language.mp hmem
    exact ⟨body, rfl, hne, fun c hc => (hbody c).mp (hall c hc)⟩
  · rintro ⟨body, rfl, hne, hall⟩
    refine ⟨['<'], rfl, body ++ ['>'], ⟨body, ?_, ['>'], rfl, rfl⟩, rfl⟩
    exact CharClass.mem_plus_language.mpr ⟨hne, fun c hc => (hbody c).mpr (hall c hc)⟩

/-- The action that comes with the notation: two colons and a word. -/
theorem mem_builtinAction_iff :
    text ∈ language "builtin_action" ↔ ∃ body, text = ':' :: ':' :: body ∧ body ≠ [] ∧
      ∀ c ∈ body, c.isLower = true := by
  have h : partsOf statements "builtin_action" =
      [[ofLiteral [':', ':'], ofClass [.range 'a' 'z'] "[a-z]" .plus]] := by
    decide
  have hbody (c : Char) : CharClass.contains ⟨false, [.range 'a' 'z'], "[a-z]"⟩ c = c.isLower := by
    simp [CharClass.contains, matches_lower]
  rw [language_of_items h, List.map_cons, List.map_singleton, List.prod_cons, List.prod_singleton,
    Language.mem_mul]
  constructor
  · rintro ⟨_, rfl, body, hmem, rfl⟩
    obtain ⟨hne, hall⟩ := CharClass.mem_plus_language.mp hmem
    exact ⟨body, rfl, hne, fun c hc => hbody c ▸ hall c hc⟩
  · rintro ⟨body, rfl, hne, hall⟩
    refine ⟨[':', ':'], rfl, body, ?_, rfl⟩
    exact CharClass.mem_plus_language.mpr ⟨hne, fun c hc => (hbody c).trans (hall c hc)⟩

theorem mem_integer_iff :
    text ∈ language "integer" ↔ ∃ sign digits, text = sign ++ digits ∧
      (sign = [] ∨ sign = ['-']) ∧ digits ≠ [] ∧ ∀ c ∈ digits, c.isDigit = true := by
  have h : partsOf statements "integer" =
      [[ofClass [.char '-'] "[-]" .optional, ofClass [.range '0' '9'] "[0-9]" .plus]] := by
    decide
  have hsign (c : Char) : CharClass.contains ⟨false, [.char '-'], "[-]"⟩ c = (c == '-') := by
    simp [CharClass.contains, matches_char]
  have hdigit (c : Char) :
      CharClass.contains ⟨false, [.range '0' '9'], "[0-9]"⟩ c = c.isDigit := by
    simp [CharClass.contains, matches_digit]
  rw [language_of_items h, List.map_cons, List.map_singleton, List.prod_cons, List.prod_singleton,
    Language.mem_mul]
  constructor
  · rintro ⟨sign, hmem, digits, hdigits, rfl⟩
    obtain ⟨hne, hall⟩ := CharClass.mem_plus_language.mp hdigits
    refine ⟨sign, digits, rfl, ?_, hne, fun c hc => hdigit c ▸ hall c hc⟩
    rcases hmem with ⟨c, hc, rfl⟩ | hnil
    · exact Or.inr (by rw [eq_of_beq ((hsign c).symm.trans hc)])
    · exact Or.inl hnil
  · rintro ⟨sign, digits, rfl, hmem, hne, hall⟩
    refine ⟨sign, ?_, digits, ?_, rfl⟩
    · rcases hmem with rfl | rfl
      · exact Or.inr rfl
      · exact Or.inl ⟨'-', by decide, rfl⟩
    · exact CharClass.mem_plus_language.mpr ⟨hne, fun c hc => (hdigit c).trans (hall c hc)⟩

theorem mem_quantifier_iff :
    text ∈ language "quantifier" ↔ text = ['*'] ∨ text = ['+'] ∨ text = ['?'] := by
  have h : partsOf statements "quantifier" =
      [[ofClass [.char '*', .char '+', .char '?'] "[*+?]" .one]] := by
    decide
  rw [language_of_items h, List.map_singleton, List.prod_singleton]
  constructor
  · rintro ⟨c, hc, rfl⟩
    simpa [CharClass.contains, matches_char] using hc
  · rintro (rfl | rfl | rfl)
    · exact ⟨'*', by decide, rfl⟩
    · exact ⟨'+', by decide, rfl⟩
    · exact ⟨'?', by decide, rfl⟩

/-! ### Literals and classes -/

/-- A part of a quoted text: a character, or a backslash with the character behind it. -/
def IsUnit (stop : Char) (u : List Char) : Prop :=
  (∃ c, u = [c] ∧ c ≠ stop ∧ c ≠ '\\' ∧ c ≠ '\n') ∨ ∃ c, u = ['\\', c] ∧ c ≠ '\n'

theorem mem_unit_iff {name spelling : String} {stop : Char}
    (h : partsOf statements name =
      [[ofOthers [.char stop, .char '\\', .char '\n'] spelling .one],
        [ofClass [.char '\\'] "[\\\\]" .one, ofOthers [.char '\n'] "[^\\n]" .one]]) :
    text ∈ language name ↔ IsUnit stop text := by
  have hother (c : Char) : CharClass.contains
      ⟨true, [.char stop, .char '\\', .char '\n'], spelling⟩ c = true ↔
        c ≠ stop ∧ c ≠ '\\' ∧ c ≠ '\n' := by
    simp [CharClass.contains, matches_char]
  have hbackslash (c : Char) :
      CharClass.contains ⟨false, [.char '\\'], "[\\\\]"⟩ c = true ↔ c = '\\' := by
    simp [CharClass.contains, matches_char]
  have hany (c : Char) :
      CharClass.contains ⟨true, [.char '\n'], "[^\\n]"⟩ c = true ↔ c ≠ '\n' := by
    simp [CharClass.contains, matches_char]
  rw [language_of_two h, List.map_singleton, List.prod_singleton, List.map_cons,
    List.map_singleton, List.prod_cons, List.prod_singleton, Language.mem_add, Language.mem_mul]
  refine or_congr ⟨?_, ?_⟩ ⟨?_, ?_⟩
  · rintro ⟨c, hc, rfl⟩
    exact ⟨c, rfl, (hother c).mp hc⟩
  · rintro ⟨c, rfl, hc⟩
    exact ⟨c, (hother c).mpr hc, rfl⟩
  · rintro ⟨_, ⟨b, hb, rfl⟩, _, ⟨c, hc, rfl⟩, rfl⟩
    obtain rfl := (hbackslash b).mp hb
    exact ⟨c, rfl, (hany c).mp hc⟩
  · rintro ⟨c, rfl, hc⟩
    exact ⟨['\\'], ⟨_, (hbackslash _).mpr rfl, rfl⟩, [c], ⟨c, (hany c).mpr hc, rfl⟩, rfl⟩

/-- A literal is a quoted text. -/
theorem mem_literal_iff :
    text ∈ language "literal" ↔ ∃ q, (q = '\'' ∨ q = '"') ∧ ∃ units : List (List Char),
      text = q :: units.flatten ++ [q] ∧ ∀ u ∈ units, IsUnit q u := by
  have h : partsOf statements "literal" =
      [[ofClass [.char '\''] "[']" .one, (some (.name "single_quoted"), .star),
          ofClass [.char '\''] "[']" .one],
        [ofClass [.char '"'] "[\"]" .one, (some (.name "double_quoted"), .star),
          ofClass [.char '"'] "[\"]" .one]] := by
    decide
  have hsingle (u : List Char) : u ∈ language "single_quoted" ↔ IsUnit '\'' u :=
    mem_unit_iff (by decide : partsOf statements "single_quoted" =
      [[ofOthers [.char '\'', .char '\\', .char '\n'] "[^'\\\\\\n]" .one],
        [ofClass [.char '\\'] "[\\\\]" .one, ofOthers [.char '\n'] "[^\\n]" .one]])
  have hdouble (u : List Char) : u ∈ language "double_quoted" ↔ IsUnit '"' u :=
    mem_unit_iff (by decide : partsOf statements "double_quoted" =
      [[ofOthers [.char '"', .char '\\', .char '\n'] "[^\"\\\\\\n]" .one],
        [ofClass [.char '\\'] "[\\\\]" .one, ofOthers [.char '\n'] "[^\\n]" .one]])
  have hquote (q : Char) (spelling : String) (u : List Char) :
      u ∈ partLanguage language (ofClass [.char q] spelling .one) ↔ u = [q] := by
    constructor
    · rintro ⟨c, hc, rfl⟩
      simpa [CharClass.contains, matches_char] using hc
    · rintro rfl
      exact ⟨q, by simp [CharClass.contains, matches_char], rfl⟩
  have hquoted (q : Char) (spelling name : String)
      (hname : ∀ u, u ∈ language name ↔ IsUnit q u) :
      text ∈ ([ofClass [.char q] spelling .one, (some (.name name), .star),
        ofClass [.char q] spelling .one].map (partLanguage language)).prod ↔
        ∃ units : List (List Char), text = q :: units.flatten ++ [q] ∧
          ∀ u ∈ units, IsUnit q u := by
    simp only [List.map_cons, List.map_nil, List.prod_cons, List.prod_nil, mul_one,
      Language.mem_mul, hquote]
    constructor
    · rintro ⟨_, rfl, _, ⟨_, ⟨units, rfl, hunits⟩, _, rfl, rfl⟩, rfl⟩
      exact ⟨units, rfl, fun u hu => (hname u).mp (hunits u hu)⟩
    · rintro ⟨units, rfl, hunits⟩
      exact ⟨[q], rfl, _, ⟨_, ⟨units, rfl, fun u hu => (hname u).mpr (hunits u hu)⟩, [q], rfl,
        rfl⟩, rfl⟩
  rw [language_of_two h, Language.mem_add, hquoted _ _ _ hsingle, hquoted _ _ _ hdouble]
  simp [or_and_right, exists_or]

/-- A class is a text in brackets that is not empty. -/
theorem mem_charClass_iff :
    text ∈ language "char_class" ↔ ∃ units : List (List Char),
      text = '[' :: units.flatten ++ [']'] ∧ units ≠ [] ∧ ∀ u ∈ units, IsUnit ']' u := by
  have h : partsOf statements "char_class" =
      [[ofLiteral ['['], (some (.name "class_char"), .plus), ofLiteral [']']]] := by
    decide
  have hunit (u : List Char) : u ∈ language "class_char" ↔ IsUnit ']' u :=
    mem_unit_iff (by decide : partsOf statements "class_char" =
      [[ofOthers [.char ']', .char '\\', .char '\n'] "[^\\]\\\\\\n]" .one],
        [ofClass [.char '\\'] "[\\\\]" .one, ofOthers [.char '\n'] "[^\\n]" .one]])
  rw [language_of_items h]
  simp only [List.map_cons, List.map_nil, List.prod_cons, List.prod_nil, mul_one,
    Language.mem_mul]
  constructor
  · rintro ⟨_, rfl, _, ⟨_, hbody, _, rfl, rfl⟩, rfl⟩
    obtain ⟨u, hu, _, ⟨units, rfl, hunits⟩, rfl⟩ := Language.mem_mul.mp hbody
    exact ⟨u :: units, rfl, List.cons_ne_nil _ _, List.forall_mem_cons.mpr
      ⟨(hunit u).mp hu, fun v hv => (hunit v).mp (hunits v hv)⟩⟩
  · rintro ⟨units, rfl, hne, hunits⟩
    obtain ⟨u, units, rfl⟩ := List.exists_cons_of_ne_nil hne
    rw [List.forall_mem_cons] at hunits
    refine ⟨['['], rfl, _, ⟨_, ?_, [']'], rfl, rfl⟩, rfl⟩
    exact Language.mem_mul.mpr ⟨u, (hunit u).mpr hunits.1, units.flatten,
      ⟨units, rfl, fun v hv => (hunit v).mpr (hunits.2 v hv)⟩, rfl⟩

/-! ### Gaps -/

theorem mem_whitespace_iff :
    text ∈ language "whitespace" ↔ text ≠ [] ∧ ∀ c ∈ text, isBlank c = true := by
  have h : partsOf statements "whitespace" = [[ofClass [.shorthand 's'] "[\\s]" .plus]] := by
    decide
  have hblank (c : Char) :
      CharClass.contains ⟨false, [.shorthand 's'], "[\\s]"⟩ c = isBlank c := by
    simp [CharClass.contains, ClassItem.matches, shorthandMatches]
  rw [language_of_items h, List.map_singleton, List.prod_singleton]
  refine CharClass.mem_plus_language.trans (and_congr_right fun _ => ?_)
  exact forall₂_congr fun c _ => by rw [hblank]

/-- A comment goes to the end of its line. -/
theorem mem_comment_iff :
    text ∈ language "comment" ↔ ∃ body, text = '#' :: body ∧ ∀ c ∈ body, c ≠ '\n' := by
  have h : partsOf statements "comment" =
      [[ofLiteral ['#'], ofOthers [.char '\n'] "[^\\n]" .star]] := by
    decide
  have hbody (c : Char) :
      CharClass.contains ⟨true, [.char '\n'], "[^\\n]"⟩ c = true ↔ c ≠ '\n' := by
    simp [CharClass.contains, matches_char]
  rw [language_of_items h, List.map_cons, List.map_singleton, List.prod_cons, List.prod_singleton,
    Language.mem_mul]
  constructor
  · rintro ⟨_, rfl, body, hmem, rfl⟩
    exact ⟨body, rfl, fun c hc => (hbody c).mp (CharClass.mem_kstar_language.mp hmem c hc)⟩
  · rintro ⟨body, rfl, hall⟩
    exact ⟨['#'], rfl, body, CharClass.mem_kstar_language.mpr fun c hc =>
      (hbody c).mpr (hall c hc), rfl⟩

end GrammarText

end Scannerless
