import Scannerless.Proofs.GrammarText.Layout
import Scannerless.Proofs.GrammarText.Phrases

/-!
# What the grammar of the notation does

A grammar that conforms to the notation keeps layout and tokens apart, its trees come to
the phrases of their notions, and it derives the words of all statements that use the words of
the notation.

## Main definitions

- `GrammarText.Spells` — a lexeme matches a word, which is a token.
- `GrammarText.Derivable` — the symbols of a notion derive lexemes that spell some words.

## Main statements

- `GrammarText.Conforms.separates` — layout and tokens are kept apart.
- `GrammarText.Conforms.explains` — trees come to the phrases of their notions.
- `GrammarText.Conforms.derivable_statements` — the words of statements are derived.
-/

namespace Scannerless.GrammarText

open Text

variable {g : Grammar}

/-! ### Symbols -/

/-- Symbols that match a mark or a token have no rules. -/
theorem not_mem_ruled : ∀ n ∈ ruled, (∀ w, n ≠ .mark w) ∧ ∀ name, n ≠ .token name := by
  have htest : ruled.all (fun n => match n with
    | .mark _ | .token _ => false
    | _ => true) = true := by decide
  intro n hn
  have hn := List.all_eq_true.mp htest n hn
  constructor
  all_goals
    rintro w rfl
    cases hn

theorem IsStructural.isLexeme_of_mark (h : Conforms g) {s : SymbolId} (hs : IsStructural g s)
    {w : String} (hn : notion g s = .mark w) : g.isLexeme s = true :=
  Grammar.isLexeme_iff.mpr (hs.resolve_left fun hs =>
    (not_mem_ruled _ (h.nonterminal s hs)).1 w hn)

theorem IsStructural.isLexeme_of_token (h : Conforms g) {s : SymbolId} (hs : IsStructural g s)
    {name : String} (hn : notion g s = .token name) : g.isLexeme s = true :=
  Grammar.isLexeme_iff.mpr (hs.resolve_left fun hs =>
    (not_mem_ruled _ (h.nonterminal s hs)).2 name hn)

theorem Conforms.denotes (h : Conforms g) {s : SymbolId} (hs : g.isLexeme s = true) :
    Denotes g s :=
  h.lexeme s (Grammar.isLexeme_iff.mp hs)

/-- The rules of the grammar are the productions of the notation. -/
theorem Conforms.productionOf_mem (h : Conforms g) {id : RuleId} {rule : Rule}
    (hrule : g.structural.rule? id = some rule) :
    productionOf g rule ∈ GrammarText.productions := by
  rw [← h.productions]
  exact List.mem_map_of_mem (RuleTable.mem_rules_of_rule? hrule)

theorem Conforms.exists_rule (h : Conforms g) {p : Production} (hp : p ∈ GrammarText.productions) :
    ∃ id rule, g.structural.rule? id = some rule ∧ productionOf g rule = p := by
  rw [← h.productions] at hp
  obtain ⟨rule, hrule, rfl⟩ := List.mem_map.mp hp
  obtain ⟨id, hid, rfl⟩ := Array.getElem_of_mem (Array.mem_toList_iff.mp hrule)
  exact ⟨id, _, Array.getElem?_eq_getElem hid, rfl⟩

/-! ### Layout and tokens -/

theorem isToken_of_language {name : String} (hname : name ∈ tokenNames) {text : List Char}
    (h : text ∈ language name) : IsToken text := by
  simp only [tokenNames, List.mem_cons, List.not_mem_nil, or_false] at hname
  rcases hname with rfl | rfl | rfl | rfl | rfl | rfl | rfl
  · exact isToken_bareName h
  · exact isToken_bracketedName h
  · exact isToken_builtinAction h
  · exact isToken_integer h
  · exact isToken_literal h
  · exact isToken_charClass h
  · exact isToken_quantifier h

theorem isToken_keyword : ∀ w ∈ keywords, IsToken w.toList := by
  have htest : ∀ w ∈ keywords, w.toList.all IsVisible = true ∧
      w.toList.head?.any (fun c => c ∉ enclosures.map Prod.fst) = true := by
    decide
  intro w hw
  obtain ⟨hvisible, hstart⟩ := htest w hw
  simp only [List.all_eq_true, decide_eq_true_eq] at hvisible
  simp only [Option.any_eq_true, decide_eq_true_eq] at hstart
  exact Or.inl (isPlain_of_visible hvisible hstart)

theorem isGap_of_language {name : String} (hname : name ∈ gapNames) {text : List Char}
    (h : text ∈ language name) : IsGap text := by
  simp only [gapNames, List.mem_cons, List.not_mem_nil, or_false] at hname
  rcases hname with rfl | rfl
  · exact Or.inl (mem_whitespace_iff.mp h)
  · exact Or.inr (mem_comment_iff.mp h)

theorem exists_language_of_isGap {text : List Char} (h : IsGap text) :
    ∃ name ∈ gapNames, text ∈ language name := by
  rcases h with h | h
  · exact ⟨"whitespace", by decide, mem_whitespace_iff.mpr h⟩
  · exact ⟨"comment", by decide, mem_comment_iff.mpr h⟩

/-- A discarded symbol matches what its name denotes. -/
theorem Conforms.matches_discard_iff (h : Conforms g) {s : SymbolId} (hs : s ∈ g.discards) :
    g.name s ∈ gapNames ∧ ∀ text, g.Matches s text ↔ text ∈ language (g.name s) := by
  have hname : g.name s ∈ gapNames := by
    rw [← h.discards]
    exact List.mem_map_of_mem hs
  have hnotion : ∀ name ∈ gapNames, Notion.ofName name = .token name := by
    decide
  refine ⟨hname, ?_⟩
  rcases h.lexeme s (h.coherent.discards s hs) with ⟨w, -, hn, -⟩ | ⟨name, -, hn, hmatches⟩
  · rw [notion, hnotion _ hname] at hn
    cases hn
  · rw [notion, hnotion _ hname] at hn
    obtain rfl := Notion.token.inj hn
    exact hmatches

/-- Layout and tokens are kept apart. -/
theorem Conforms.separates (h : Conforms g) : g.Separates where
  discards text := by
    constructor
    · rintro ⟨s, hs, hmatches⟩
      obtain ⟨hname, hlanguage⟩ := h.matches_discard_iff hs
      exact isGap_of_language hname ((hlanguage text).mp hmatches)
    · intro hgap
      obtain ⟨name, hname, hlanguage⟩ := exists_language_of_isGap hgap
      rw [← h.discards] at hname
      obtain ⟨s, hs, rfl⟩ := List.mem_map.mp hname
      exact ⟨s, hs, ((h.matches_discard_iff hs).2 text).mpr hlanguage⟩
  lexemes s text hs hmatches := by
    rcases h.denotes hs with ⟨w, hw, -, hword⟩ | ⟨name, hname, -, hlanguage⟩
    · rw [(hword text).mp hmatches]
      exact Or.inl (isToken_keyword w hw)
    · rcases List.mem_append.mp hname with hname | hname
      · exact Or.inl (isToken_of_language hname ((hlanguage text).mp hmatches))
      · exact Or.inr (isGap_of_language hname ((hlanguage text).mp hmatches))

/-! ### Trees come to phrases -/

/-- A token comes to the phrase that it is, whatever it was taken for. -/
theorem Conforms.means_of_matches (h : Conforms g) {s : SymbolId} (hs : g.isLexeme s = true)
    {w : String} (hmatches : g.Matches s w.toList) : Means (notion g s) [.token w] [w] := by
  rcases h.denotes hs with ⟨word, -, hn, hword⟩ | ⟨name, -, hn, hlanguage⟩
  · rw [hn]
    exact ⟨.token w, rfl, w, String.toList_inj.mp ((hword _).mp hmatches), rfl, rfl⟩
  · rw [hn]
    exact ⟨.token w, rfl, w, ⟨name, List.mem_singleton_self _, (hlanguage _).mp hmatches⟩, rfl,
      rfl⟩

theorem Conforms.applies (h : Conforms g) {id : RuleId} {rule : Rule}
    (hrule : g.structural.rule? id = some rule) (input : Indexed) (start stop : Nat) :
    Applies (productionOf g rule) ⟨g, input, rule, start, stop⟩ where
  semantics := rfl
  defaultAction := h.defaultAction
  lexeme name hname := by
    obtain ⟨s, hrhs, hn⟩ : ∃ s, rule.rhs = [s] ∧ notion g s = .token name := by
      obtain ⟨s, hrhs, hn⟩ := List.map_eq_singleton_iff.mp hname
      exact ⟨s, hrhs, hn⟩
    rw [hrhs]
    refine ⟨List.cons_ne_nil _ _, List.forall_mem_singleton.mpr ?_⟩
    have hs : IsStructural g s :=
      isStructural_rhs h.coherent hrule s (hrhs ▸ List.mem_singleton_self s)
    exact hs.isLexeme_of_token h hn

/-- The trees over longest lexemes come to the phrases of their notions. -/
theorem Conforms.explains {r : Recognition} (h : Conforms r.grammar) :
    r.Explains (r.grammar.longestLattice r.input) Phrase.actions
      (fun s => Means (notion r.grammar s)) where
  token i s j _ hj := by
    obtain ⟨⟨-, hs, hcovers⟩, -⟩ := hj
    exact h.means_of_matches hs hcovers.matches_between
  rule id rule hrule parts hparts := by
    have houtcome := outcome_of_production (h.productionOf_mem hrule)
      (List.forall₂_map_left_iff.mpr hparts)
    rw [Outcome] at houtcome
    cases hsplice : rule.isSplice with
    | true =>
      have hs : (productionOf r.grammar rule).semantics = .splice := eq_of_beq hsplice
      rw [if_pos hs] at houtcome
      exact houtcome
    | false =>
      have hs : (productionOf r.grammar rule).semantics ≠ .splice :=
        ne_of_beq_false hsplice
      rw [if_neg hs] at houtcome
      exact fun start stop => houtcome _ (h.applies hrule r.input start stop)

/-! ### Words are derived -/

/-- A lexeme matches a word, which is a token. -/
def Spells (g : Grammar) (a : SymbolId) (w : String) : Prop :=
  g.isLexeme a = true ∧ g.Matches a w.toList ∧ IsToken w.toList

/-- The symbols of a notion derive lexemes that spell some words. -/
def Derivable (g : Grammar) (n : Notion) (ws : List String) : Prop :=
  ∀ s, IsStructural g s → notion g s = n → g.structural.DerivesFor (Spells g) [s] ws

/-- A production derives what the notions on its right side derive. -/
theorem Conforms.derivable_of_production (h : Conforms g) {p : Production}
    (hp : p ∈ GrammarText.productions) {wss : List (List String)}
    (hwss : List.Forall₂ (Derivable g) p.rhs wss) : Derivable g p.lhs wss.flatten := by
  intro s hs hn
  obtain ⟨id, rule, hrule, rfl⟩ := h.exists_rule hp
  -- Only one symbol has the notion on the left.
  obtain rfl := h.unique s rule.lhs hs (isStructural_lhs h.coherent hrule) hn
  exact derivesFor_of_rule h.coherent hrule
    ((List.forall₂_map_left_iff.mp hwss).imp fun s _ hs hstructural => hs s hstructural rfl)

theorem Conforms.derivable_mark (h : Conforms g) {w : String} (hw : w ∈ keywords) :
    Derivable g (.mark w) [w] := by
  intro s hs hn
  have hlexeme := hs.isLexeme_of_mark h hn
  refine RuleTable.derivesFor_self ⟨hlexeme, ?_, isToken_keyword w hw⟩
  rcases h.denotes hlexeme with ⟨word, -, hn', hword⟩ | ⟨name, -, hn', -⟩
  · obtain rfl := Notion.mark.inj (hn.symm.trans hn')
    exact (hword _).mpr rfl
  · cases hn.symm.trans hn'

theorem Conforms.derivable_token (h : Conforms g) {name w : String} (hname : name ∈ tokenNames)
    (hw : w.toList ∈ language name) : Derivable g (.token name) [w] := by
  intro s hs hn
  have hlexeme := hs.isLexeme_of_token h hn
  refine RuleTable.derivesFor_self ⟨hlexeme, ?_, isToken_of_language hname hw⟩
  rcases h.denotes hlexeme with ⟨word, -, hn', -⟩ | ⟨name', -, hn', hlanguage⟩
  · cases hn.symm.trans hn'
  · obtain rfl := Notion.token.inj (hn.symm.trans hn')
    exact (hlanguage _).mpr hw

theorem mem_productions_of_plain : ∀ p ∈ plainProductions, p ∈ productions := by
  decide

theorem mem_productions_of_sequence (s : Sequence) : ∀ p ∈ s.productions, p ∈ productions := by
  have hall : ∀ s ∈ sequences, ∀ p ∈ s.productions, p ∈ productions := by
    decide
  exact hall s (by cases s <;> decide)

theorem separator_subset (s : Sequence) : s.separator ⊆ keywords := by
  cases s <;> decide

/-- Parts with separators between them are derived one behind the other, from the left. -/
theorem Conforms.derivable_listed (h : Conforms g) (s : Sequence) {wss : List (List String)}
    (hne : wss ≠ []) (hwss : ∀ ws ∈ wss, Derivable g s.part ws) :
    Derivable g (.listed s) (s.join wss) := by
  induction wss using List.reverseRecOn with
  | nil => exact absurd rfl hne
  | append_singleton wss ws ih =>
    have hlast := hwss ws (by simp)
    by_cases hfirst : wss = []
    · subst hfirst
      have hone := h.derivable_of_production (mem_productions_of_sequence s _ List.mem_cons_self)
        (.cons hlast .nil)
      simpa [Sequence.join] using hone
    · have hfront := ih hfirst fun ws hws => hwss ws (List.mem_append_left _ hws)
      have hmarks : List.Forall₂ (Derivable g) (s.separator.map Notion.mark)
          (s.separator.map fun w => [w]) := by
        rw [List.forall₂_map_left_iff, List.forall₂_map_right_iff, List.forall₂_same]
        exact fun w hw => h.derivable_mark (separator_subset s hw)
      have hmore := h.derivable_of_production
        (mem_productions_of_sequence s _ (List.mem_cons_of_mem _ List.mem_cons_self))
        (.cons hfront (List.rel_append hmarks (.cons hlast .nil)))
      rw [Sequence.join_concat s hfirst]
      simpa [← List.flatMap_def] using hmore

/-- A sequence is derived if its parts are. -/
theorem Conforms.derivable_whole (h : Conforms g) (s : Sequence) {wss : List (List String)}
    (hne : wss = [] → s.mayBeEmpty = true) (hwss : ∀ ws ∈ wss, Derivable g s.part ws) :
    Derivable g (.whole s) (s.join wss) := by
  by_cases hnone : wss = []
  · have hempty : production (.whole s) [] (some (.named s.name)) ∈ s.productions := by
      rw [Sequence.productions, if_pos (hne hnone)]
      exact List.mem_append_right _ (List.mem_singleton_self _)
    rw [hnone]
    exact h.derivable_of_production (mem_productions_of_sequence s _ hempty) .nil
  · have hall : production (.whole s) [.listed s] (some (.named s.name)) ∈ s.productions := by
      simp [Sequence.productions]
    have hone : Derivable g (.whole s) ([s.join wss].flatten) :=
      h.derivable_of_production (mem_productions_of_sequence s _ hall)
        (.cons (h.derivable_listed s hnone hwss) .nil)
    simpa using hone

/-- A sequence without separators is derived if its parts are. -/
theorem Conforms.derivable_flatMap (h : Conforms g) (s : Sequence) (hs : s.separator = [])
    (hempty : s.mayBeEmpty = true) {α : Type} {words : α → List String} {xs : List α}
    (hxs : ∀ x ∈ xs, Derivable g s.part (words x)) :
    Derivable g (.whole s) (xs.flatMap words) := by
  rw [List.flatMap_def, ← Sequence.join_of_nil hs]
  exact h.derivable_whole s (fun _ => hempty) (List.forall_mem_map.mpr hxs)

/-! ### The words of statements are derived -/

theorem Conforms.derivable_plain (h : Conforms g) {p : Production} (hp : p ∈ plainProductions)
    {wss : List (List String)} (hwss : List.Forall₂ (Derivable g) p.rhs wss) :
    Derivable g p.lhs wss.flatten :=
  h.derivable_of_production (mem_productions_of_plain p hp) hwss

/-- A notion that one token may stand for. -/
theorem Conforms.derivable_of_token (h : Conforms g) {lhs : Notion} {name w : String}
    {action : Option Action} (hname : name ∈ tokenNames)
    (hp : production lhs [.token name] action ∈ plainProductions) (hw : w.toList ∈ language name) :
    Derivable g lhs [w] :=
  h.derivable_plain hp (.cons (h.derivable_token hname hw) .nil)

theorem Conforms.derivable_symbol (h : Conforms g) {w : String} (hw : vocabulary.symbol w) :
    Derivable g .symbol [w] := by
  obtain ⟨name, hname, hw⟩ := hw
  have hall : ∀ name ∈ symbolNames, name ∈ tokenNames ∧
      production .symbol [.token name] (some (.named "spelled")) ∈ plainProductions := by
    decide
  exact h.derivable_of_token (hall name hname).1 (hall name hname).2 hw

theorem Conforms.derivable_element (h : Conforms g) {w : String} (hw : vocabulary.element w) :
    Derivable g .element [w] := by
  obtain ⟨name, hname, hw⟩ := hw
  rcases List.mem_append.mp hname with hname | hname
  · have hsymbol : production .element [.symbol] (some .first) ∈ plainProductions := by
      decide
    exact h.derivable_plain hsymbol (.cons (h.derivable_symbol ⟨name, hname, hw⟩) .nil)
  · have hall : ∀ name ∈ ["literal", "char_class"], name ∈ tokenNames ∧
        production .element [.token name] (some (.named "spelled")) ∈ plainProductions := by
      decide
    exact h.derivable_of_token (hall name hname).1 (hall name hname).2 hw

theorem Conforms.derivable_value (h : Conforms g) {w : String} (hw : vocabulary.value w) :
    Derivable g .value [w] := by
  obtain ⟨name, hname, hw⟩ := hw
  have hall : ∀ name ∈ valueNames, name ∈ tokenNames ∧
      production .value [.token name] none ∈ plainProductions := by
    decide
  exact h.derivable_of_token (hall name hname).1 (hall name hname).2 hw

theorem Conforms.derivable_item (h : Conforms g) {i : RhsItem} (hi : i.In vocabulary) :
    Derivable g .item i.words := by
  have helement := h.derivable_element hi
  have hquantified : production .item [.element, .token "quantifier"]
      (some (.named "quantified")) ∈ plainProductions := by
    decide
  have hquantifier {w : String} (hw : w.toList ∈ language "quantifier") :
      Derivable g .item [i.element, w] :=
    h.derivable_plain hquantified
      (.cons helement (.cons (h.derivable_token (by decide) hw) .nil))
  rw [RhsItem.words]
  cases i.quantifier with
  | one =>
    have hsingle : production .item [.element] (some (.named "item")) ∈ plainProductions := by
      decide
    exact h.derivable_plain hsingle (.cons helement .nil)
  | optional => exact hquantifier (mem_quantifier_iff.mpr (by simp))
  | star => exact hquantifier (mem_quantifier_iff.mpr (by simp))
  | plus => exact hquantifier (mem_quantifier_iff.mpr (by simp))

theorem Conforms.derivable_adverb (h : Conforms g) {a : Adverb} (ha : a.In vocabulary) :
    Derivable g .adverb a.words := by
  obtain ⟨⟨name, hname, hw⟩, hvalue⟩ := ha
  obtain rfl := List.mem_singleton.mp hname
  have hp : production .adverb [.token "bare_name", .mark "=>", .value]
      (some (.named "adverb")) ∈ plainProductions := by
    decide
  exact h.derivable_plain hp (.cons (h.derivable_token (by decide) hw)
    (.cons (h.derivable_mark (by decide)) (.cons (h.derivable_value hvalue) .nil)))

theorem Conforms.derivable_adverbs (h : Conforms g) {as : List Adverb}
    (has : ∀ a ∈ as, a.In vocabulary) :
    Derivable g (.whole .adverbs) (as.flatMap Adverb.words) :=
  h.derivable_flatMap .adverbs rfl rfl fun a ha => h.derivable_adverb (has a ha)

theorem Conforms.derivable_alternative (h : Conforms g) {a : Alternative} (ha : a.In vocabulary) :
    Derivable g .alternative a.words := by
  have hitems := h.derivable_flatMap .items rfl rfl fun i hi => h.derivable_item (ha.1 i hi)
  have hp : production .alternative [.whole .items, .whole .adverbs]
      (some (.named "alternative")) ∈ plainProductions := by
    decide
  have halternative := h.derivable_plain hp (.cons hitems (.cons (h.derivable_adverbs ha.2) .nil))
  rwa [List.flatten_cons, List.flatten_singleton] at halternative

theorem Conforms.derivable_alternatives (h : Conforms g) {as : List Alternative}
    (has : AlternativesIn vocabulary as) :
    Derivable g (.whole .alternatives) (alternativesWords as) :=
  h.derivable_whole .alternatives (fun hnone => absurd (List.map_eq_nil_iff.mp hnone) has.1)
    (List.forall_mem_map.mpr fun a ha => h.derivable_alternative (has.2 a ha))

theorem Conforms.derivable_tiers (h : Conforms g) {ts : List (List Alternative)}
    (hts : TiersIn vocabulary ts) : Derivable g (.whole .tiers) (tiersWords ts) :=
  h.derivable_whole .tiers (fun hnone => absurd (List.map_eq_nil_iff.mp hnone) hts.1)
    (List.forall_mem_map.mpr fun t ht => h.derivable_alternatives (hts.2 t ht))

theorem mem_plainProductions_of_statement : ∀ p ∈ statementProductions, p ∈ plainProductions := by
  decide

theorem Conforms.derivable_statement (h : Conforms g) {s : Statement} (hs : s.In vocabulary) :
    Derivable g .statement s.words := by
  have hmark {w : String} (hw : w ∈ keywords) := h.derivable_mark hw
  have hplain {p : Production} (hp : p ∈ statementProductions) {wss : List (List String)}
      (hwss : List.Forall₂ (Derivable g) p.rhs wss) :=
    h.derivable_plain (mem_plainProductions_of_statement p hp) hwss
  cases s with
  | start symbol offset =>
    have hp : production .statement [.mark ":start", .mark "::=", .symbol]
        (some (.named "start")) ∈ statementProductions := by
      decide
    exact hplain hp <| .cons (hmark (by decide)) <| .cons (hmark (by decide)) <|
      .cons (h.derivable_symbol hs) .nil
  | default adverbs offset =>
    have hp : production .statement [.mark ":default", .mark "::=", .whole .adverbs]
        (some (.named "default")) ∈ statementProductions := by
      decide
    have hwords := hplain hp <| .cons (hmark (by decide)) <| .cons (hmark (by decide)) <|
      .cons (h.derivable_adverbs hs) .nil
    simpa [Statement.words, production] using hwords
  | discard element offset =>
    have hp : production .statement [.mark ":discard", .mark "~", .element]
        (some (.named "discard")) ∈ statementProductions := by
      decide
    exact hplain hp <| .cons (hmark (by decide)) <| .cons (hmark (by decide)) <|
      .cons (h.derivable_element hs) .nil
  | lexemeDefault adverbs offset =>
    have hp : production .statement [.mark "lexeme", .mark "default", .mark "=", .whole .adverbs]
        (some (.named "lexeme_default")) ∈ statementProductions := by
      decide
    have hwords := hplain hp <| .cons (hmark (by decide)) <| .cons (hmark (by decide)) <|
      .cons (hmark (by decide)) <| .cons (h.derivable_adverbs hs) .nil
    simpa [Statement.words, production] using hwords
  | structural lhs tiers offset =>
    have hp : production .statement [.symbol, .mark "::=", .whole .tiers]
        (some (.named "structural")) ∈ statementProductions := by
      decide
    have hwords := hplain hp <| .cons (h.derivable_symbol hs.1) <| .cons (hmark (by decide)) <|
      .cons (h.derivable_tiers hs.2) .nil
    simpa [Statement.words, production] using hwords
  | lexical lhs alternatives offset =>
    have hp : production .statement [.symbol, .mark "~", .whole .alternatives]
        (some (.named "lexical")) ∈ statementProductions := by
      decide
    have hwords := hplain hp <| .cons (h.derivable_symbol hs.1) <| .cons (hmark (by decide)) <|
      .cons (h.derivable_alternatives hs.2) .nil
    simpa [Statement.words, production] using hwords

/-- The words of statements are derived. -/
theorem Conforms.derivable_statements (h : Conforms g) {ss : List Statement}
    (hss : ∀ s ∈ ss, s.In vocabulary) :
    Derivable g (.whole .statements) (ss.flatMap Statement.words) :=
  h.derivable_flatMap .statements rfl rfl fun s hs => h.derivable_statement (hss s hs)

end Scannerless.GrammarText
