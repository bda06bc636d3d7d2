import Scannerless.Proofs.Grammar.Offsets

/-!
# The words of statements

A statement is written as a sequence of words: its head, a mark, and the alternatives, items and
adverbs behind it. Nothing marks the end of a statement, and its first word may look like one
more item of the statement before. Read from the last word to the first, though, each word says
what it is: so statements are told by their words, except for the offsets they carry.

## Main definitions

- `Statement.words` — the words of a statement, and so on for its parts.
- `Vocabulary`, `Statement.In` — the words that may stand for symbols, elements, names and
  values, and the statements that use no other ones.
- `Scan.step`, `Scan.statements` — reads statements from the last word to the first.

## Main statements

- `Scan.statements_words` — reading the words of statements gives the statements back.
- `placeless_eq_of_words_eq` — statements are told by their words.
-/

namespace Scannerless

/-! ### Words -/

def Quantifier.words : Quantifier → List String
  | .one => []
  | .optional => ["?"]
  | .star => ["*"]
  | .plus => ["+"]

def RhsItem.words (i : RhsItem) : List String :=
  i.element :: i.quantifier.words

def Adverb.words (a : Adverb) : List String :=
  [a.name, "=>", a.value]

def Alternative.words (a : Alternative) : List String :=
  a.rhs.flatMap RhsItem.words ++ a.adverbs.flatMap Adverb.words

/-- The words of alternatives with a mark between each two of them. -/
def alternativesWords (alternatives : List Alternative) : List String :=
  ["|"].intercalate (alternatives.map Alternative.words)

/-- The words of tiers with a mark between each two of them. -/
def tiersWords (tiers : List (List Alternative)) : List String :=
  ["||"].intercalate (tiers.map alternativesWords)

theorem alternativesWords_cons_cons (a a' : Alternative) (alternatives : List Alternative) :
    alternativesWords (a :: a' :: alternatives) =
      a.words ++ "|" :: alternativesWords (a' :: alternatives) := by
  simp [alternativesWords, List.intercalate]

theorem tiersWords_cons_cons (tier tier' : List Alternative) (tiers : List (List Alternative)) :
    tiersWords (tier :: tier' :: tiers) =
      alternativesWords tier ++ "||" :: tiersWords (tier' :: tiers) := by
  simp [tiersWords, List.intercalate]

/-- The words of a statement. -/
def Statement.words : Statement → List String
  | .start symbol _ => [":start", "::=", symbol]
  | .default adverbs _ => ":default" :: "::=" :: adverbs.flatMap Adverb.words
  | .discard element _ => [":discard", "~", element]
  | .lexemeDefault adverbs _ => "lexeme" :: "default" :: "=" :: adverbs.flatMap Adverb.words
  | .structural lhs tiers _ => lhs :: "::=" :: tiersWords tiers
  | .lexical lhs alternatives _ => lhs :: "~" :: alternativesWords alternatives

/-- The words that may stand for symbols, for elements, for names of adverbs and for their
    values. -/
structure Vocabulary where
  symbol : String → Prop
  element : String → Prop
  name : String → Prop
  value : String → Prop

section

variable (v : Vocabulary)

def RhsItem.In (i : RhsItem) : Prop :=
  v.element i.element

def Adverb.In (a : Adverb) : Prop :=
  v.name a.name ∧ v.value a.value

def Alternative.In (a : Alternative) : Prop :=
  (∀ i ∈ a.rhs, i.In v) ∧ ∀ x ∈ a.adverbs, x.In v

/-- Alternatives, at least one of them. -/
def AlternativesIn (alternatives : List Alternative) : Prop :=
  alternatives ≠ [] ∧ ∀ a ∈ alternatives, a.In v

/-- Tiers, at least one of them. -/
def TiersIn (tiers : List (List Alternative)) : Prop :=
  tiers ≠ [] ∧ ∀ tier ∈ tiers, AlternativesIn v tier

/-- A statement that uses the words of a vocabulary, and that has alternatives if it is to
    have any. -/
def Statement.In : Statement → Prop
  | .start symbol _ => v.symbol symbol
  | .default adverbs _ | .lexemeDefault adverbs _ => ∀ a ∈ adverbs, a.In v
  | .discard element _ => v.element element
  | .structural lhs tiers _ => v.symbol lhs ∧ TiersIn v tiers
  | .lexical lhs alternatives _ => v.symbol lhs ∧ AlternativesIn v alternatives

end

/-- All words of one vocabulary are words of another one, each for the same. -/
structure Vocabulary.Within (v v' : Vocabulary) : Prop where
  symbol : ∀ w, v.symbol w → v'.symbol w
  element : ∀ w, v.element w → v'.element w
  name : ∀ w, v.name w → v'.name w
  value : ∀ w, v.value w → v'.value w

section

variable {v v' : Vocabulary}

theorem Adverb.In.mono (hv : v.Within v') {a : Adverb} (h : a.In v) : a.In v' :=
  ⟨hv.name _ h.1, hv.value _ h.2⟩

theorem Alternative.In.mono (hv : v.Within v') {a : Alternative} (h : a.In v) : a.In v' :=
  ⟨fun i hi => hv.element _ (h.1 i hi), fun x hx => (h.2 x hx).mono hv⟩

theorem AlternativesIn.mono (hv : v.Within v') {alternatives : List Alternative}
    (h : AlternativesIn v alternatives) : AlternativesIn v' alternatives :=
  ⟨h.1, fun a ha => (h.2 a ha).mono hv⟩

theorem Statement.In.mono (hv : v.Within v') {s : Statement} (h : s.In v) : s.In v' := by
  cases s with
  | start symbol offset => exact hv.symbol _ h
  | default adverbs offset => exact fun a ha => (h a ha).mono hv
  | discard element offset => exact hv.element _ h
  | lexemeDefault adverbs offset => exact fun a ha => (h a ha).mono hv
  | structural lhs tiers offset =>
    exact ⟨hv.symbol _ h.1, h.2.1, fun tier htier => (h.2.2 tier htier).mono hv⟩
  | lexical lhs alternatives offset => exact ⟨hv.symbol _ h.1, h.2.mono hv⟩

end

/-- The words with a meaning of their own. -/
def marks : List String :=
  [":start", ":default", ":discard", "::=", "~", "=", "=>", "|", "||", "?", "*", "+"]

/-- All words but the marks. -/
def Vocabulary.unmarked : Vocabulary :=
  ⟨(· ∉ marks), (· ∉ marks), (· ∉ marks), (· ∉ marks)⟩

/-! ### Reading from the last word to the first -/

/-- What was read of the statement that reading is in: the alternative that it is in, the
    alternatives of its tier behind that one, and the tiers behind its tier. -/
structure RightSide where
  quantifier : Quantifier
  items : List RhsItem
  adverbs : List Adverb
  alternatives : List Alternative
  tiers : List (List Alternative)

namespace RightSide

def empty : RightSide :=
  ⟨.one, [], [], [], []⟩

/-- The alternatives of the tier that reading is in. -/
def tier (b : RightSide) : List Alternative :=
  ⟨b.items, b.adverbs, 0⟩ :: b.alternatives

end RightSide

/-- How far reading has come: it is in the right side of a statement, or a mark that it read
    says what the next words are. Behind it are statements. -/
inductive Scan where
  | body (b : RightSide) (behind : List Statement)
  | value (x : String) (b : RightSide) (behind : List Statement)
  | structural (b : RightSide) (behind : List Statement)
  | lexical (b : RightSide) (behind : List Statement)
  | default (b : RightSide) (behind : List Statement)
  | lexeme (b : RightSide) (behind : List Statement)

namespace Scan

/-- A word of a right side. -/
def stepBody (b : RightSide) (behind : List Statement) (w : String) : Scan :=
  if w = "=>" then
    -- The word behind the mark was no item, but the value of an adverb.
    .value ((b.items.head?.map (·.element)).getD "") { b with items := b.items.tail } behind
  else if w = "?" then .body { b with quantifier := .optional } behind
  else if w = "*" then .body { b with quantifier := .star } behind
  else if w = "+" then .body { b with quantifier := .plus } behind
  else if w = "|" then
    .body { RightSide.empty with alternatives := b.tier, tiers := b.tiers } behind
  else if w = "||" then .body { RightSide.empty with tiers := b.tier :: b.tiers } behind
  else if w = "::=" then .structural b behind
  else if w = "~" then .lexical b behind
  else if w = "=" then .default b behind
  else .body { b with quantifier := .one, items := ⟨w, b.quantifier, 0⟩ :: b.items } behind

/-- Reads the word in front of those that were read. -/
def step (w : String) : Scan → Scan
  | .body b behind => stepBody b behind w
  | .value x b behind => .body { b with adverbs := ⟨w, x, 0⟩ :: b.adverbs } behind
  | .structural b behind =>
    .body .empty <|
      if w = ":start" then .start ((b.items.head?.map (·.element)).getD "") 0 :: behind
      else if w = ":default" then .default b.adverbs 0 :: behind
      else .structural w (b.tier :: b.tiers) 0 :: behind
  | .lexical b behind =>
    .body .empty <|
      if w = ":discard" then .discard ((b.items.head?.map (·.element)).getD "") 0 :: behind
      else .lexical w b.tier 0 :: behind
  | .default b behind => .lexeme b behind
  | .lexeme b behind => .body .empty (.lexemeDefault b.adverbs 0 :: behind)

/-- The statements that were read. -/
def behind : Scan → List Statement
  | .body _ behind | .value _ _ behind | .structural _ behind | .lexical _ behind
  | .default _ behind | .lexeme _ behind => behind

/-- The statements that words make up. -/
def statements (ws : List String) : List Statement :=
  (ws.foldr step (.body .empty [])).behind

variable {v : Vocabulary} {items : List RhsItem} {adverbs : List Adverb}
  {alternatives : List Alternative} {tiers : List (List Alternative)} {ss : List Statement}

theorem step_of_not_mem {w : String} (h : w ∉ marks) (b : RightSide) (ss : List Statement) :
    step w (.body b ss) =
      .body { b with quantifier := .one, items := ⟨w, b.quantifier, 0⟩ :: b.items } ss := by
  simp only [marks, List.mem_cons, List.not_mem_nil, or_false, not_or] at h
  simp [step, stepBody, h]

theorem foldr_item {i : RhsItem} (h : i.In .unmarked) (adverbs : List Adverb)
    (alternatives : List Alternative) (tiers : List (List Alternative)) :
    i.words.foldr step (.body ⟨.one, items, adverbs, alternatives, tiers⟩ ss) =
      .body ⟨.one, i.placeless :: items, adverbs, alternatives, tiers⟩ ss := by
  obtain ⟨element, quantifier, offset⟩ := i
  have h : element ∉ marks := h
  cases quantifier with
  | one => exact step_of_not_mem h ⟨.one, items, adverbs, alternatives, tiers⟩ ss
  | optional => exact step_of_not_mem h ⟨.optional, items, adverbs, alternatives, tiers⟩ ss
  | star => exact step_of_not_mem h ⟨.star, items, adverbs, alternatives, tiers⟩ ss
  | plus => exact step_of_not_mem h ⟨.plus, items, adverbs, alternatives, tiers⟩ ss

theorem foldr_items (h : ∀ i ∈ items, i.In .unmarked) (adverbs : List Adverb)
    (alternatives : List Alternative) (tiers : List (List Alternative)) :
    (items.flatMap RhsItem.words).foldr step (.body ⟨.one, [], adverbs, alternatives, tiers⟩ ss) =
      .body ⟨.one, items.map RhsItem.placeless, adverbs, alternatives, tiers⟩ ss := by
  induction items with
  | nil => rfl
  | cons i items ih =>
    rw [List.forall_mem_cons] at h
    rw [List.flatMap_cons, List.foldr_append, ih h.2, foldr_item h.1, List.map_cons]

theorem foldr_adverbs (h : ∀ a ∈ adverbs, a.In .unmarked) (alternatives : List Alternative)
    (tiers : List (List Alternative)) :
    (adverbs.flatMap Adverb.words).foldr step (.body ⟨.one, [], [], alternatives, tiers⟩ ss) =
      .body ⟨.one, [], adverbs.map Adverb.placeless, alternatives, tiers⟩ ss := by
  induction adverbs with
  | nil => rfl
  | cons a adverbs ih =>
    rw [List.forall_mem_cons] at h
    rw [List.flatMap_cons, List.foldr_append, ih h.2, Adverb.words, List.foldr_cons,
      List.foldr_cons, List.foldr_cons, List.foldr_nil, step_of_not_mem h.1.2]
    rfl

theorem foldr_alternative {a : Alternative} (h : a.In .unmarked)
    (alternatives : List Alternative) (tiers : List (List Alternative)) :
    a.words.foldr step (.body ⟨.one, [], [], alternatives, tiers⟩ ss) =
      .body ⟨.one, a.placeless.rhs, a.placeless.adverbs, alternatives, tiers⟩ ss := by
  rw [Alternative.words, List.foldr_append, foldr_adverbs h.2, foldr_items h.1]
  rfl

/-- Alternatives are read with the first of them in front, whose end is not seen yet. -/
theorem foldr_alternatives (ss : List Statement) (h : AlternativesIn .unmarked alternatives)
    (tiers : List (List Alternative)) :
    ∃ b : RightSide,
      (alternativesWords alternatives).foldr step (.body { RightSide.empty with tiers } ss) =
        .body b ss ∧
      b.tier = alternatives.map Alternative.placeless ∧ b.tiers = tiers := by
  obtain ⟨hne, hall⟩ := h
  induction alternatives with
  | nil => exact absurd rfl hne
  | cons a alternatives ih =>
    rw [List.forall_mem_cons] at hall
    cases alternatives with
    | nil =>
      rw [alternativesWords, List.map_singleton, List.intercalate_singleton, RightSide.empty,
        foldr_alternative hall.1]
      exact ⟨_, rfl, rfl, rfl⟩
    | cons a' alternatives =>
      obtain ⟨b, hb, htier, htiers⟩ := ih (List.cons_ne_nil _ _) hall.2
      rw [alternativesWords_cons_cons, List.foldr_append, List.foldr_cons, hb]
      have hmark : step "|" (.body b ss) = .body ⟨.one, [], [], b.tier, b.tiers⟩ ss := rfl
      rw [hmark, foldr_alternative hall.1]
      refine ⟨_, rfl, ?_, htiers⟩
      rw [RightSide.tier, htier]
      rfl

theorem foldr_tiers (ss : List Statement) (h : TiersIn .unmarked tiers) :
    ∃ b : RightSide, (tiersWords tiers).foldr step (.body .empty ss) = .body b ss ∧
      b.tier :: b.tiers = tiers.map (·.map Alternative.placeless) := by
  obtain ⟨hne, hall⟩ := h
  induction tiers with
  | nil => exact absurd rfl hne
  | cons tier tiers ih =>
    rw [List.forall_mem_cons] at hall
    cases tiers with
    | nil =>
      obtain ⟨b, hb, htier, htiers⟩ := foldr_alternatives ss hall.1 []
      rw [tiersWords, List.map_singleton, List.intercalate_singleton]
      exact ⟨b, hb, by rw [htier, htiers]; rfl⟩
    | cons tier' tiers =>
      obtain ⟨b, hb, htiers⟩ := ih (List.cons_ne_nil _ _) hall.2
      rw [tiersWords_cons_cons, List.foldr_append, List.foldr_cons, hb]
      have hmark : step "||" (.body b ss) =
          .body { RightSide.empty with tiers := b.tier :: b.tiers } ss :=
        rfl
      obtain ⟨b', hb', htier, htiers'⟩ := foldr_alternatives ss hall.1 (b.tier :: b.tiers)
      rw [hmark]
      exact ⟨b', hb', by rw [htier, htiers', htiers]; rfl⟩

/-- The words of a statement put it in front of those behind. -/
theorem foldr_statement {s : Statement} (h : s.In .unmarked) :
    s.words.foldr step (.body .empty ss) = .body .empty (s.placeless :: ss) := by
  cases s with
  | start symbol offset =>
    have hsymbol : symbol ∉ marks := h
    rw [Statement.words, List.foldr_cons, List.foldr_cons, List.foldr_cons, List.foldr_nil,
      step_of_not_mem hsymbol]
    rfl
  | default adverbs offset =>
    rw [Statement.words, List.foldr_cons, List.foldr_cons, RightSide.empty, foldr_adverbs h]
    rfl
  | discard element offset =>
    have helement : element ∉ marks := h
    rw [Statement.words, List.foldr_cons, List.foldr_cons, List.foldr_cons, List.foldr_nil,
      step_of_not_mem helement]
    rfl
  | lexemeDefault adverbs offset =>
    rw [Statement.words, List.foldr_cons, List.foldr_cons, List.foldr_cons, RightSide.empty,
      foldr_adverbs h]
    rfl
  | structural lhs tiers offset =>
    obtain ⟨hlhs, htiers⟩ := h
    obtain ⟨b, hb, heq⟩ := foldr_tiers ss htiers
    have hlhs : lhs ∉ marks := hlhs
    simp only [marks, List.mem_cons, List.not_mem_nil, or_false, not_or] at hlhs
    rw [Statement.words, List.foldr_cons, List.foldr_cons, hb]
    simp [step, stepBody, hlhs, heq, Statement.placeless]
  | lexical lhs alternatives offset =>
    obtain ⟨hlhs, halternatives⟩ := h
    obtain ⟨b, hb, heq, -⟩ := foldr_alternatives ss halternatives []
    have hlhs : lhs ∉ marks := hlhs
    simp only [marks, List.mem_cons, List.not_mem_nil, or_false, not_or] at hlhs
    have hb : (alternativesWords alternatives).foldr step (.body .empty ss) = .body b ss := hb
    rw [Statement.words, List.foldr_cons, List.foldr_cons, hb]
    simp [step, stepBody, hlhs, heq, Statement.placeless]

/-- Reading the words of statements gives the statements back, without their offsets. -/
theorem statements_words (h : ∀ s ∈ ss, s.In .unmarked) :
    statements (ss.flatMap Statement.words) = ss.map Statement.placeless := by
  suffices hfold : (ss.flatMap Statement.words).foldr step (.body .empty []) =
      .body .empty (ss.map Statement.placeless) by
    rw [statements, hfold, behind]
  induction ss with
  | nil => rfl
  | cons s ss ih =>
    rw [List.forall_mem_cons] at h
    rw [List.flatMap_cons, List.foldr_append, ih h.2, foldr_statement h.1, List.map_cons]

end Scan

/-- Statements are told by their words, except for their offsets. -/
theorem placeless_eq_of_words_eq {ss ss' : List Statement} (h : ∀ s ∈ ss, s.In .unmarked)
    (h' : ∀ s ∈ ss', s.In .unmarked)
    (hwords : ss.flatMap Statement.words = ss'.flatMap Statement.words) :
    ss.map Statement.placeless = ss'.map Statement.placeless := by
  rw [← Scan.statements_words h, ← Scan.statements_words h', hwords]

end Scannerless
