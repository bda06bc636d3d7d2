import Scannerless.Definition
import Scannerless.Proofs.Lexer.Skipping

/-!
# Coherent grammars

What runs over inputs rely on. A symbol plays one part: it has structural rules, or
lexical rules, or stands for a character. Lexemes are not empty, and no symbol consists of
itself alone.

## Main definitions

- `Grammar.kind?` — the part that a symbol plays.
- `Grammar.Coherent` — what a grammar must be like for runs to make sense.
- `RuleTable.PassesOn` — symbols whose spliced rules pass a single value on.

## Main statements

- `Grammar.Coherent.lexicon` — characters have no lexical rules.
- `Grammar.Coherent.ne_nil_of_matches` — what a lexeme of a rule matches is not empty.
-/

namespace Scannerless

/-- Every spliced rule of a symbol of the set has one symbol on its right side, which is
    of the set again and has a value that is kept. -/
def RuleTable.PassesOn (t : RuleTable) (tiers : SymbolId → Prop) : Prop :=
  ∀ id r, t.rule? id = some r → tiers r.lhs → r.isSplice = true →
    ∃ s, r.rhs = [s] ∧ r.mask = [true] ∧ tiers s

namespace Grammar

variable {g : Grammar}

def kind? (g : Grammar) (s : SymbolId) : Option SymbolKind :=
  g.symbols[s]?.map (·.kind)

/-- What a grammar must be like for runs to make sense. -/
structure Coherent (g : Grammar) : Prop where
  structural : g.structural.Indexed
  lexical : g.lexical.Indexed
  structural_lhs : ∀ id s, g.structural.lhs? id = some s → g.kind? s = some .nonterminal
  lexical_lhs : ∀ id s, g.lexical.lhs? id = some s →
    g.kind? s = some .lexeme ∨ g.kind? s = some .lexical
  structural_rhs : ∀ id, ∀ s ∈ g.structural.rhs id,
    g.kind? s = some .nonterminal ∨
      g.kind? s = some .lexeme ∧ g.lexical.isNullable s = false
  discards : ∀ s ∈ g.discards, g.kind? s = some .lexeme
  start : g.kind? g.start = some .nonterminal
  structural_nullable : ∀ s, g.structural.Derives [s] [] → g.structural.isNullable s = true
  lexical_nullable : ∀ s, g.lexical.Derives [s] [] → g.lexical.isNullable s = true
  acyclic : ∀ s, Acc (fun a b => a ∈ Draft.aloneFrom g.structural b) s
  tiers : ∃ tiers, g.structural.PassesOn tiers ∧ tiers g.start

theorem charClass?_eq_some_iff {s : SymbolId} {cls : CharClass} :
    g.charClass? s = some cls ↔ g.kind? s = some (.char cls) := by
  rw [charClass?, kind?]
  cases hs : g.symbols[s]? with
  | none => simp
  | some symbol =>
    obtain ⟨name, kind⟩ := symbol
    cases kind <;> simp

theorem isLexeme_iff {s : SymbolId} : g.isLexeme s = true ↔ g.kind? s = some .lexeme := by
  rw [isLexeme, kind?]
  cases g.symbols[s]? <;> simp

theorem charClass?_eq_none {s : SymbolId} {kind : SymbolKind} (h : g.kind? s = some kind)
    (hkind : ∀ cls, kind ≠ .char cls) : g.charClass? s = none := by
  cases hs : g.charClass? s with
  | none => rfl
  | some cls =>
    rw [charClass?_eq_some_iff, h, Option.some.injEq] at hs
    exact absurd hs (hkind cls)

/-- A symbol of a structural rule does not stand for a character. -/
theorem Coherent.charClass?_eq_none (hg : g.Coherent) {id : RuleId} {s : SymbolId}
    (hs : s ∈ g.structural.rhs id) : g.charClass? s = none := by
  rcases hg.structural_rhs id s hs with h | h
  · exact Grammar.charClass?_eq_none h (by simp)
  · exact Grammar.charClass?_eq_none h.1 (by simp)

/-- Characters have no lexical rules. -/
theorem Coherent.lexicon (hg : g.Coherent) : g.Lexicon where
  indexed := hg.lexical
  chars s cls hs := by
    rw [charClass?_eq_some_iff] at hs
    refine Bool.eq_false_iff.mpr fun hrules => ?_
    obtain ⟨id, hid⟩ := RuleTable.exists_mem_rulesFor hrules
    rcases hg.lexical_lhs id s ((hg.lexical s id).mp hid) with h | h
    · rw [hs] at h
      cases h
    · rw [hs] at h
      cases h

theorem Coherent.plainDiscards (hg : g.Coherent) : g.PlainDiscards :=
  fun s hs => Grammar.charClass?_eq_none (hg.discards s hs) (by simp)

theorem Coherent.hasRules_eq_false (hg : g.Coherent) {s : SymbolId}
    (hs : g.kind? s = some .lexeme) : g.structural.hasRules s = false := by
  refine Bool.eq_false_iff.mpr fun hrules => ?_
  obtain ⟨id, hid⟩ := RuleTable.exists_mem_rulesFor hrules
  have h := hg.structural_lhs id s ((hg.structural s id).mp hid)
  rw [hs] at h
  cases h

/-- A symbol of a structural rule that derives a text is a lexeme. -/
theorem Coherent.kind?_of_matches (hg : g.Coherent) {id : RuleId} {s : SymbolId}
    (hs : s ∈ g.structural.rhs id) {text : List Char} (h : g.Matches s text) :
    g.kind? s = some .lexeme ∧ g.lexical.isNullable s = false := by
  rcases hg.structural_rhs id s hs with hkind | hkind
  · -- A symbol with structural rules has no lexical ones, and stands for no character.
    obtain ⟨w, hderives, hall⟩ := h
    exfalso
    rcases Relation.ReflTransGen.cases_head hderives with rfl | ⟨v, hstep, -⟩
    · obtain ⟨c, cls, hcls, -⟩ := exists_accepts hall List.mem_cons_self
      rw [charClass?_eq_some_iff, hkind] at hcls
      cases hcls
    · obtain ⟨id', hlhs, -⟩ := hstep.of_singleton
      rcases hg.lexical_lhs _ s hlhs with h | h
      · rw [hkind] at h
        cases h
      · rw [hkind] at h
        cases h
  · exact hkind

/-- A text that is derived by no character is derived by no symbol at all. -/
theorem derives_nil_of_matches {s : SymbolId} (h : g.Matches s []) : g.lexical.Derives [s] [] := by
  obtain ⟨w, hderives, hall⟩ := h
  cases hall
  exact hderives

/-- What a lexeme of a structural rule matches is not empty. -/
theorem Coherent.ne_nil_of_matches (hg : g.Coherent) {id : RuleId} {s : SymbolId}
    (hs : s ∈ g.structural.rhs id) {text : List Char} (h : g.Matches s text) : text ≠ [] := by
  rintro rfl
  have hnull := hg.lexical_nullable s (derives_nil_of_matches h)
  rw [(hg.kind?_of_matches hs h).2] at hnull
  cases hnull

/-! ### Symbols that others consist of -/

theorem mem_aloneIn {t : RuleTable} {s : SymbolId} (hs : t.hasRules s = true)
    {before front back : List SymbolId} (hfront : ∀ x ∈ before ++ front, t.isNullable x = true)
    (hback : ∀ x ∈ back, t.isNullable x = true) :
    s ∈ Draft.aloneIn t before (front ++ s :: back) := by
  induction front generalizing before with
  | nil =>
    rw [List.append_nil] at hfront
    rw [List.nil_append, Draft.aloneIn, if_pos]
    · exact List.mem_cons_self
    · -- The others in front and behind are empty, which is what makes the symbol stand alone.
      simp only [hs, Bool.true_and, Bool.and_eq_true, List.all_eq_true]
      exact ⟨hfront, hback⟩
  | cons x front ih =>
    have hmem : s ∈ Draft.aloneIn t (before ++ [x]) (front ++ s :: back) :=
      ih (by simpa using hfront)
    rw [List.cons_append, Draft.aloneIn]
    split
    · exact List.mem_cons_of_mem x hmem
    · exact hmem

/-- A symbol may consist of one in a rule of its own if the others there are empty. -/
theorem Coherent.mem_aloneFrom (hg : g.Coherent) {id : RuleId} {s x : SymbolId}
    {front back : List SymbolId} (hlhs : g.structural.lhs? id = some s)
    (hrhs : g.structural.rhs id = front ++ x :: back) (hx : g.structural.hasRules x = true)
    (hempty : ∀ y ∈ front ++ back, g.structural.Derives [y] []) :
    x ∈ Draft.aloneFrom g.structural s := by
  rw [Draft.aloneFrom, List.mem_flatMap]
  refine ⟨id, (hg.structural s id).mpr hlhs, ?_⟩
  rw [hrhs]
  exact mem_aloneIn hx
    (fun y hy => hg.structural_nullable y (hempty y (List.mem_append_left _ hy)))
    (fun y hy => hg.structural_nullable y (hempty y (List.mem_append_right _ hy)))

end Grammar

end Scannerless
