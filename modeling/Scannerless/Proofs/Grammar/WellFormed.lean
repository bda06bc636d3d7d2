import Scannerless.Proofs.Grammar.Lowering
import Scannerless.Proofs.Grammar.Supply

/-!
# Well-formed grammars

What recognizers, lexers and evaluations rely on when they index by symbols and ask for
rules: every symbol is one of the grammar, has the part that its place asks for, and has rules
wherever it is not a character. Accepted statements lead to grammars of that kind.

## Main definitions

- `RuleTable.Defines` — a symbol has a rule in a table.
- `RuleTable.WellFormed` — the rules of a table and their index fit the symbols.
- `Grammar.WellFormed` — a grammar with two such tables, with a part for each symbol.

## Main statements

- `Lowered.exists_rule` — every symbol has a rule on the level of its kind.
- `Grammar.wellFormed_of_ofStatements` — accepted statements lead to well-formed grammars.
- `Definition.compile_wellFormed` — the grammar of a definition is well formed.
-/

namespace Scannerless

namespace RuleTable

/-- A symbol is the left symbol of a rule. -/
def Defines (t : RuleTable) (s : SymbolId) : Prop :=
  ∃ id r, t.rule? id = some r ∧ r.lhs = s

/-- A table fits the symbols below a number: its rules have no others, a mask says of every
    place of a right side whether it is kept, and the index lists exactly the rules of a
    symbol, in ascending order. -/
structure WellFormed (t : RuleTable) (numSymbols : Nat) : Prop where
  lhs_lt : ∀ id r, t.rule? id = some r → r.lhs < numSymbols
  rhs_lt : ∀ id r, t.rule? id = some r → ∀ s ∈ r.rhs, s < numSymbols
  mask : ∀ id r, t.rule? id = some r → r.mask.length = r.rhs.length
  mem_rulesFor : ∀ s id, id ∈ t.rulesFor s ↔ ∃ r, t.rule? id = some r ∧ r.lhs = s
  ascending : ∀ s, (t.rulesFor s).Pairwise (· < ·)

variable {t : RuleTable} {rules : Array Rule} {n : Nat} {s : SymbolId}

/-- Whether a symbol has rules can be read off the index. -/
theorem WellFormed.hasRules_iff (h : t.WellFormed n) : t.hasRules s = true ↔ t.Defines s := by
  rw [hasRules, Bool.not_eq_true', List.isEmpty_eq_false_iff_exists_mem]
  exact exists_congr fun id => h.mem_rulesFor s id

theorem defines_ofRules_iff : (ofRules rules n).Defines s ↔ ∃ r ∈ rules.toList, r.lhs = s := by
  constructor
  · rintro ⟨id, r, hr, hs⟩
    exact ⟨r, mem_rules_of_rule? hr, hs⟩
  · rintro ⟨r, hr, hs⟩
    obtain ⟨id, hid⟩ := Array.getElem?_of_mem (Array.mem_toList_iff.mp hr)
    exact ⟨id, r, hid, hs⟩

theorem wellFormed_ofRules (hlhs : ∀ r ∈ rules.toList, r.lhs < n)
    (hrhs : ∀ r ∈ rules.toList, ∀ s ∈ r.rhs, s < n)
    (hmask : ∀ r ∈ rules.toList, r.mask.length = r.rhs.length) :
    (ofRules rules n).WellFormed n := by
  refine ⟨fun id r hr => hlhs r (mem_rules_of_rule? hr),
    fun id r hr => hrhs r (mem_rules_of_rule? hr), fun id r hr => hmask r (mem_rules_of_rule? hr),
    fun s id => ?_, sorted_rulesFor_ofRules rules n⟩
  rw [mem_rulesFor_ofRules, and_iff_right_of_imp]
  · rfl
  · rintro ⟨r, hr, rfl⟩
    exact hlhs r (Array.mem_toList_iff.mpr (Array.mem_of_getElem? hr))

end RuleTable

/-- What a grammar is like that came out of statements. A symbol of a right side has rules of
    its own, on its own level, unless it stands for a character. -/
structure Grammar.WellFormed (g : Grammar) : Prop where
  structural : g.structural.WellFormed g.symbols.size
  lexical : g.lexical.WellFormed g.symbols.size
  start_lt : g.start < g.symbols.size
  discards_lt : ∀ s ∈ g.discards, s < g.symbols.size
  start : g.structural.Defines g.start
  structural_lhs : ∀ s, g.structural.Defines s → g.kind? s = some .nonterminal
  lexical_lhs : ∀ s, g.lexical.Defines s →
    g.kind? s = some .lexeme ∨ g.kind? s = some .lexical
  one_level : ∀ s, ¬(g.structural.Defines s ∧ g.lexical.Defines s)
  structural_rhs : ∀ id r, g.structural.rule? id = some r → ∀ s ∈ r.rhs,
    g.kind? s = some .nonterminal ∧ g.structural.Defines s ∨
      g.kind? s = some .lexeme ∧ g.lexical.Defines s
  lexical_rhs : ∀ id r, g.lexical.rule? id = some r → ∀ s ∈ r.rhs,
    (∃ cls, g.kind? s = some (.char cls)) ∧ ¬g.structural.Defines s ∧ ¬g.lexical.Defines s ∨
      g.lexical.Defines s
  discards : ∀ s ∈ g.discards, g.kind? s = some .lexeme ∧ g.lexical.Defines s ∧
    ∀ id r, g.structural.rule? id = some r → s ∉ r.rhs

/-! ### Symbols with rules -/

namespace Draft

variable {o : Outline} {d : Draft} {g : Grammar} {s : SymbolId}

/-- A structural definition adds a rule of its name. -/
theorem Lowers.exists_rule {start stop lhs : SymbolId} {name : String}
    {tiers : List (List Alternative)} {rules : List Rule}
    (h : d.Lowers o start stop lhs name tiers rules)
    (hne : tiers ≠ [] ∧ ∀ alternatives ∈ tiers, alternatives ≠ []) : ∃ r ∈ rules, r.lhs = lhs := by
  cases h with
  | @plain alternatives _ hplain hrules =>
    obtain ⟨alt, halt⟩ := List.exists_mem_of_ne_nil alternatives (hne.2 _ List.mem_cons_self)
    obtain ⟨r, hr, adverbs, rhs, -, -, rfl⟩ := exists_mem_of_forall₂ hrules halt
    exact ⟨_, hr, rfl⟩
  | @sequence alt item p hitem hq hparts hstart hstop =>
    exact ⟨_, List.mem_append_right _ List.mem_cons_self, rfl⟩
  | @tiers _ base rules htiers hstart hstop hrules =>
    have hlevels : List.range' base tiers.length ≠ [] := by simpa using hne.1
    refine ⟨spliceRule lhs [(List.range' base tiers.length).getLast hlevels] name,
      List.mem_append_left _ (List.mem_append_left _ ?_), rfl⟩
    simp [List.getLast?_eq_some_getLast hlevels]

theorem disjoint_of_finish {description : String} (h : d.finish o description = .ok g)
    (hs : s ∈ d.discards) : s ∉ d.lexemes := by
  rw [finish, bind_eq_ok_iff] at h
  obtain ⟨_, hdisjoint, -⟩ := h
  rw [requireDisjoint] at hdisjoint
  split at hdisjoint
  · cases hdisjoint
  next hnone => simpa using List.find?_eq_none.mp hnone s hs

end Draft

namespace Lowered

variable {ss : List Statement} {g : Grammar} {o : Outline} {d : Draft} {s : SymbolId}

theorem exists_rule_of_structural (h : Lowered ss g o d) (hs : s < o.structural.length) :
    ∃ r ∈ d.structural.toList, r.lhs = s := by
  obtain ⟨name, hid, x, hx, hname⟩ := Outline.exists_structural_statement h.outline hs
  have hinhabited := (Outline.lists_of_ofStatements h.outline).inhabited x hx
  cases x with
  | structural spelling tiers offset =>
    obtain ⟨before, after, hss⟩ := List.append_of_mem hx
    obtain ⟨⟨d₁, d₂, name', lhs, rules, R⟩, p⟩ := h.exists_passage hss
    obtain rfl := Option.some.inj ((Outline.structural_name p.decode).symm.trans hname)
    obtain rfl := Option.some.inj (hid.symm.trans p.structuralId?)
    obtain ⟨r, hr, hr'⟩ := p.lowers.exists_rule hinhabited
    exact ⟨r, by rw [p.structural_eq]; simp [hr], hr'⟩
  | _ => cases hname

theorem exists_rule_of_lexical (h : Lowered ss g o d) {i : Nat} (hi : i < o.lexical.length) :
    ∃ r ∈ d.lexical.toList, r.lhs = o.structural.length + i := by
  obtain ⟨name, hid, x, hx, hname⟩ := Outline.exists_lexical_statement h.outline hi
  have hinhabited := (Outline.lists_of_ofStatements h.outline).inhabited x hx
  obtain ⟨alt, halt⟩ : ∃ alt, alt ∈ lexicalAlternatives ss name := by
    cases x with
    | lexical spelling alternatives offset =>
      obtain ⟨alt, halt⟩ := List.exists_mem_of_ne_nil alternatives hinhabited
      refine ⟨alt, List.mem_flatMap.mpr ⟨_, hx, ?_⟩⟩
      rw [Statement.lexicalName?] at hname
      split at hname
      next name' hdecode =>
        obtain rfl := Option.some.inj hname
        simpa [Statement.lexicalAlternatives, hdecode] using halt
      next => cases hname
    | _ => cases hname
  obtain ⟨r, hr, -⟩ := exists_mem_of_forall₂ (h.drafted.lexical hid) halt
  obtain ⟨hmem, hlhs⟩ := List.mem_filter.mp hr
  exact ⟨r, hmem, eq_of_beq hlhs⟩

/-- No rule is owed when all statements are read. -/
theorem owes (h : Lowered ss g o d) : d.Owes o ∅ := by
  refine Drafting.statements_settles (Outline.lists_of_ofStatements h.outline).inhabited
    _ _ d ∅ h.draft ?_
  rw [Set.empty_union]
  exact Draft.owes_ofOutline o

/-- Every symbol has a rule on the level of its kind. -/
theorem exists_rule (h : Lowered ss g o d) {k : SymbolKind} {level : Level}
    (hs : d.kind? s = some k) (hk : k.level? = some level) :
    ∃ r ∈ d.rules level, r.lhs = s := by
  rcases h.owes.rules s k level hs hk with hname | hdebt | hrule
  · by_cases hlt : s < o.structural.length
    · have hentry := h.orderly.structuralName s _ (List.getElem?_eq_getElem hlt)
      rw [Draft.kind?, hentry] at hs
      obtain rfl := Option.some.inj hs
      obtain rfl := Option.some.inj hk
      exact h.exists_rule_of_structural hlt
    · obtain ⟨i, rfl⟩ := Nat.exists_eq_add_of_le (Nat.le_of_not_lt hlt)
      have hi : i < o.lexical.length := Nat.lt_of_add_lt_add_left hname
      obtain ⟨k', hentry, hkind⟩ := h.orderly.lexicalName i _ (List.getElem?_eq_getElem hi)
      rw [Draft.kind?, hentry] at hs
      obtain rfl := Option.some.inj hs
      have hlevel : level = .lexical := by
        rcases hkind with rfl | rfl <;> exact (Option.some.inj hk).symm
      rw [hlevel]
      exact h.exists_rule_of_lexical hi
  · cases hdebt
  · exact hrule

theorem kind?_eq (h : Lowered ss g o d) (s : SymbolId) : g.kind? s = d.kind? s := by
  rw [Grammar.kind?, h.tables.1, Draft.kind?]

theorem defines_structural (h : Lowered ss g o d) (hs : g.kind? s = some .nonterminal) :
    g.structural.Defines s := by
  rw [h.tables.2.1, RuleTable.defines_ofRules_iff]
  exact h.exists_rule (h.kind?_eq s ▸ hs) rfl

theorem defines_lexical (h : Lowered ss g o d)
    (hs : g.kind? s = some .lexeme ∨ g.kind? s = some .lexical) : g.lexical.Defines s := by
  rw [h.tables.2.2.1, RuleTable.defines_ofRules_iff]
  have hrule : ∃ r ∈ d.rules .lexical, r.lhs = s := by
    rcases hs with hs | hs
    · exact h.exists_rule (h.kind?_eq s ▸ hs) rfl
    · exact h.exists_rule (h.kind?_eq s ▸ hs) rfl
  exact hrule

end Lowered

/-! ### The grammar of statements -/

namespace Plan

variable {o : Outline} {p : Plan} {s : SymbolId}

theorem Valid.lt_of_operand (hp : p.Valid o) (hs : p.Operand s) : s < p.draft.symbols.size := by
  obtain ⟨k, hk⟩ := hp.exists_kind hs
  exact Draft.lt_of_kind? hk

theorem lt_of_lexed (hs : p.Lexed s) : s < p.draft.symbols.size :=
  hs.elim Draft.lt_of_kind? Draft.lt_of_kind?

theorem lt_of_part (hs : p.Part s) : s < p.draft.symbols.size := by
  rcases hs with hs | ⟨cls, hs⟩
  · exact lt_of_lexed hs
  · exact Draft.lt_of_kind? hs

end Plan

namespace Grammar

variable {g : Grammar} {s : SymbolId}

theorem lt_of_kind? {k : SymbolKind} (h : g.kind? s = some k) : s < g.symbols.size := by
  refine Nat.lt_of_not_le fun hle => ?_
  rw [kind?, Array.getElem?_eq_none hle] at h
  cases h

/-- A symbol with structural rules is a nonterminal. -/
theorem Coherent.kind?_of_structural (h : g.Coherent) (hs : g.structural.Defines s) :
    g.kind? s = some .nonterminal := by
  obtain ⟨id, r, hr, rfl⟩ := hs
  exact h.structural_lhs id _ (RuleTable.lhs?_of_rule? hr)

/-- A symbol with lexical rules is a lexeme, or a part of lexemes. -/
theorem Coherent.kind?_of_lexical (h : g.Coherent) (hs : g.lexical.Defines s) :
    g.kind? s = some .lexeme ∨ g.kind? s = some .lexical := by
  obtain ⟨id, r, hr, rfl⟩ := hs
  exact h.lexical_lhs id _ (RuleTable.lhs?_of_rule? hr)

theorem Coherent.not_defines_both (h : g.Coherent) (s : SymbolId) :
    ¬(g.structural.Defines s ∧ g.lexical.Defines s) := by
  rintro ⟨hstructural, hlexical⟩
  have hkind := h.kind?_of_structural hstructural
  rcases h.kind?_of_lexical hlexical with hkind' | hkind'
  all_goals
    rw [hkind] at hkind'
    cases hkind'

/-- A symbol that stands for a character has no rules. -/
theorem Coherent.not_defines_of_char (h : g.Coherent) {cls : CharClass}
    (hs : g.kind? s = some (.char cls)) :
    ¬g.structural.Defines s ∧ ¬g.lexical.Defines s := by
  constructor
  · intro hdefines
    have hkind := h.kind?_of_structural hdefines
    rw [hs] at hkind
    cases hkind
  · intro hdefines
    rcases h.kind?_of_lexical hdefines with hkind | hkind
    all_goals
      rw [hs] at hkind
      cases hkind

end Grammar

namespace Lowered

variable {ss : List Statement} {g : Grammar} {o : Outline} {d : Draft} {s : SymbolId}

theorem structural_wellFormed (h : Lowered ss g o d) :
    g.structural.WellFormed g.symbols.size := by
  obtain ⟨p, rfl, hp⟩ := h.drafted.exists_plan
  obtain ⟨hsymbols, hstructural, -, -⟩ := h.tables
  rw [hstructural, hsymbols]
  refine RuleTable.wellFormed_ofRules (fun r hr => ?_) (fun r hr s hs => ?_)
    fun r hr => h.owes.masks .structural r hr
  · exact Draft.lt_of_kind? (hp.structural r hr).1
  · exact hp.lt_of_operand ((hp.structural r hr).2 s hs)

theorem lexical_wellFormed (h : Lowered ss g o d) : g.lexical.WellFormed g.symbols.size := by
  obtain ⟨p, rfl, hp⟩ := h.drafted.exists_plan
  obtain ⟨hsymbols, -, hlexical, -⟩ := h.tables
  rw [hlexical, hsymbols]
  refine RuleTable.wellFormed_ofRules (fun r hr => ?_) (fun r hr s hs => ?_)
    fun r hr => h.owes.masks .lexical r hr
  · exact Plan.lt_of_lexed (hp.lexical r hr).1
  · exact Plan.lt_of_part ((hp.lexical r hr).2 s hs)

/-- On a lexical right side there are characters and symbols with rules. -/
theorem lexical_rhs (h : Lowered ss g o d) {id : RuleId} {r : Rule}
    (hr : g.lexical.rule? id = some r) (hs : s ∈ r.rhs) :
    (∃ cls, g.kind? s = some (.char cls)) ∨ g.lexical.Defines s := by
  obtain ⟨p, rfl, hp⟩ := h.drafted.exists_plan
  rw [h.tables.2.2.1] at hr
  rcases (hp.lexical r (RuleTable.mem_rules_of_rule? hr)).2 s hs with hlexed | ⟨cls, hchar⟩
  · exact Or.inr (h.defines_lexical (by rwa [h.kind?_eq]))
  · exact Or.inl ⟨cls, (h.kind?_eq s).trans hchar⟩

/-- What is discarded is no part of structural rules. A lexeme is on a right side only if it is
    a token, and no token is discarded. -/
theorem not_mem_rhs_of_discard (h : Lowered ss g o d) (hs : s ∈ g.discards) {id : RuleId}
    {r : Rule} (hr : g.structural.rule? id = some r) : s ∉ r.rhs := by
  obtain ⟨p, rfl, hp⟩ := h.drafted.exists_plan
  obtain ⟨description, hfinish⟩ := h.grammar
  rw [h.tables.2.2.2] at hs
  rw [h.tables.2.1] at hr
  intro hmem
  rcases (hp.structural r (RuleTable.mem_rules_of_rule? hr)).2 s hmem with hnonterminal | htoken
  · have hcontra : some SymbolKind.lexeme = some .nonterminal :=
      (hp.discards s hs).symm.trans hnonterminal
    cases hcontra
  · exact Draft.disjoint_of_finish hfinish hs htoken

end Lowered

namespace Grammar

variable {g : Grammar}

/-- Accepted statements lead to well-formed grammars. -/
theorem wellFormed_of_ofStatements {ss : List Statement} {description : String}
    (h : ofStatements ss description = .ok g) : g.WellFormed := by
  obtain ⟨o, d, hg⟩ := Lowered.exists_of_ofStatements h
  have hcoherent := hg.coherent
  exact {
    structural := hg.structural_wellFormed
    lexical := hg.lexical_wellFormed
    start_lt := lt_of_kind? hcoherent.start
    discards_lt := fun s hs => lt_of_kind? (hcoherent.discards s hs)
    start := hg.defines_structural hcoherent.start
    structural_lhs := fun s => hcoherent.kind?_of_structural
    lexical_lhs := fun s => hcoherent.kind?_of_lexical
    one_level := hcoherent.not_defines_both
    structural_rhs := by
      intro id r hr s hs
      rw [← RuleTable.rhs_of_rule? hr] at hs
      rcases hcoherent.structural_rhs id s hs with hkind | ⟨hkind, -⟩
      · exact Or.inl ⟨hkind, hg.defines_structural hkind⟩
      · exact Or.inr ⟨hkind, hg.defines_lexical (Or.inl hkind)⟩
    lexical_rhs := by
      intro id r hr s hs
      rcases hg.lexical_rhs hr hs with ⟨cls, hkind⟩ | hdefines
      · exact Or.inl ⟨⟨cls, hkind⟩, hcoherent.not_defines_of_char hkind⟩
      · exact Or.inr hdefines
    discards := by
      intro s hs
      have hkind := hcoherent.discards s hs
      exact ⟨hkind, hg.defines_lexical (Or.inl hkind), fun id r hr =>
        hg.not_mem_rhs_of_discard hs hr⟩ }

theorem IsCompiled.wellFormed (h : g.IsCompiled) : g.WellFormed := by
  obtain ⟨ss, description, h⟩ := h.exists_ofStatements
  exact wellFormed_of_ofStatements h

end Grammar

namespace Definition

/-- The grammar of a definition is well formed. -/
theorem compile_wellFormed {d : Definition} {g : Grammar} (h : d.compile = .ok g) :
    g.WellFormed :=
  Grammar.wellFormed_of_ofStatements (Grammar.ofStatements_of_compile h)

/-- Sums with commas between them, of numbers with a tier of their own. -/
def sumList : Definition :=
  ⟨[.alternative "list" ((Alternative.ofItems ["sum*"]).withAdverb "separator" "','"),
    .prioritized "sum" [[Alternative.ofItems ["number"]],
      [Alternative.ofItems ["sum", "'+'", "sum"]]],
    .lexeme "number" ["digit+"], .lexeme "digit" ["[0-9]"], .discarded "' '"], "sums"⟩

/-- The symbols that items, tiers, terminals and quantifiers get have their rules. -/
theorem compile_wellFormed_sumList :
    ∃ g, sumList.compile = .ok g ∧ g.symbols.size = 15 ∧ g.structural.rules.size = 9 ∧
      g.lexical.rules.size = 7 ∧ g.structural.rulesFor g.start = [2, 3, 4] ∧ g.WellFormed := by
  have hrun : sumList.compile.toOption.any (fun g => g.symbols.size == 15 &&
      g.structural.rules.size == 9 && g.lexical.rules.size == 7 &&
      g.structural.rulesFor g.start == [2, 3, 4]) = true := by
    decide +kernel
  obtain ⟨g, hg, htest⟩ := exists_eq_ok_of_any hrun
  simp only [Bool.and_eq_true, beq_iff_eq] at htest
  obtain ⟨⟨⟨hsymbols, hstructural⟩, hlexical⟩, hstart⟩ := htest
  exact ⟨g, hg, hsymbols, hstructural, hlexical, hstart, compile_wellFormed hg⟩

end Definition

end Scannerless
