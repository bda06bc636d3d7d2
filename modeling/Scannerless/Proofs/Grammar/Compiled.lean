import Scannerless.GrammarText
import Scannerless.Proofs.Digraph
import Scannerless.Proofs.Grammar.Coherence
import Scannerless.Proofs.Grammar.Nullable
import Scannerless.Proofs.Grammar.Statements

/-!
# Compiled grammars

The grammars that come out of definitions and of grammar texts are coherent: what a draft
has and what is refused at its end amount to that.

## Main definitions

- `Grammar.IsCompiled` — a grammar came out of a definition or of a text.

## Main statements

- `Grammar.coherent_of_ofStatements` — the grammar of statements is coherent.
- `Grammar.IsCompiled.coherent` — compiled grammars are coherent.
-/

namespace Scannerless

namespace Draft

variable {d : Draft} {o : Outline} {g : Grammar} {description : String}

theorem findCycle_of_requireAcyclic {edges : Nat → List SymbolId} {cause : List String → Cause}
    (h : d.requireAcyclic edges cause = .ok ()) :
    Digraph.findCycle edges d.symbols.size = none := by
  rw [requireAcyclic] at h
  split at h
  · cases h
  · assumption

theorem isNullable_of_requireNonempty {lexical : RuleTable}
    (h : d.requireNonempty lexical = .ok ()) {s : SymbolId}
    (hs : s ∈ d.lexemes ∨ s ∈ d.discards) : lexical.isNullable s = false := by
  rw [requireNonempty] at h
  split at h
  · cases h
  next hnone =>
    rw [List.find?_eq_none] at hnone
    simpa using hnone s (List.mem_append.mpr hs)

theorem startSymbol_lt {start : SymbolId} (h : startSymbol o = .ok start) :
    start < o.structural.length := by
  rw [startSymbol] at h
  split at h
  · rw [bind_eq_ok_iff] at h
    obtain ⟨name, -, h⟩ := h
    split at h
    next id hid =>
      obtain rfl := Except.ok.inj h
      exact Plan.structuralId?_lt hid
    next => cases h
  · split at h
    next => cases h
    next hnonempty =>
      obtain rfl := Except.ok.inj h
      exact List.length_pos_of_ne_nil (by simpa using hnonempty)

theorem finish_eq_ok (h : d.finish o description = .ok g) :
    ∃ start, startSymbol o = .ok start ∧
      d.requireNonempty (.ofRules d.lexical d.symbols.size) = .ok () ∧
      d.requireAcyclic (aloneFrom (.ofRules d.structural d.symbols.size)) .ruleCycle = .ok () ∧
      g = ⟨d.symbols, .ofRules d.structural d.symbols.size, .ofRules d.lexical d.symbols.size,
        start, d.discards, o.longestMatch.getD false, o.defaultAction, description⟩ := by
  rw [finish, bind_eq_ok_iff] at h
  obtain ⟨_, -, h⟩ := h
  rw [bind_eq_ok_iff] at h
  obtain ⟨start, hstart, h⟩ := h
  simp only [bind_eq_ok_iff] at h
  obtain ⟨_, -, ⟨⟩, hnonempty, ⟨⟩, hacyclic, h⟩ := h
  exact ⟨start, hstart, hnonempty, hacyclic, (Except.ok.inj h).symm⟩

theorem aloneFrom_of_le {rules : Array Rule} {n s : Nat} (h : n ≤ s) :
    aloneFrom (.ofRules rules n) s = [] := by
  have hrules : (RuleTable.ofRules rules n).rulesFor s = [] := by
    refine List.eq_nil_iff_forall_not_mem.mpr fun id hid => ?_
    exact absurd (RuleTable.mem_rulesFor_ofRules.mp hid).1 (Nat.not_lt_of_le h)
  rw [aloneFrom, hrules]
  rfl

end Draft

namespace RuleTable

theorem exists_rule_of_lhs? {rules : Array Rule} {n : Nat} {id : RuleId} {s : SymbolId}
    (h : (ofRules rules n).lhs? id = some s) : ∃ r ∈ rules.toList, r.lhs = s := by
  rw [lhs?, Option.map_eq_some_iff] at h
  obtain ⟨r, hr, hs⟩ := h
  exact ⟨r, mem_rules_of_rule? hr, hs⟩

theorem exists_rule_of_mem_rhs {rules : Array Rule} {n : Nat} {id : RuleId} {s : SymbolId}
    (h : s ∈ (ofRules rules n).rhs id) : ∃ r ∈ rules.toList, s ∈ r.rhs := by
  rw [rhs] at h
  split at h
  next r hr => exact ⟨r, mem_rules_of_rule? hr, h⟩
  next => cases h

end RuleTable

namespace Grammar

variable {g : Grammar}

/-- A valid draft becomes a coherent grammar. -/
theorem coherent_of_finish {o : Outline} {p : Plan} {description : String} (hp : p.Valid o)
    (h : p.draft.finish o description = .ok g) : g.Coherent := by
  obtain ⟨start, hstart, hnonempty, hacyclic, rfl⟩ := Draft.finish_eq_ok h
  have hstructural : ∀ r ∈ p.draft.structural.toList, r.lhs < p.draft.symbols.size :=
    fun r hr => Draft.lt_of_kind? (hp.structural r hr).1
  have hlexical : ∀ r ∈ p.draft.lexical.toList, r.lhs < p.draft.symbols.size := by
    intro r hr
    rcases (hp.lexical r hr).1 with h | h
    · exact Draft.lt_of_kind? h
    · exact Draft.lt_of_kind? h
  have hstarts := hp.structuralNames start (Draft.startSymbol_lt hstart)
  exact {
    structural := RuleTable.indexed_ofRules hstructural
    lexical := RuleTable.indexed_ofRules hlexical
    structural_lhs := by
      intro id s hs
      obtain ⟨r, hr, rfl⟩ := RuleTable.exists_rule_of_lhs? hs
      exact (hp.structural r hr).1
    lexical_lhs := by
      intro id s hs
      obtain ⟨r, hr, rfl⟩ := RuleTable.exists_rule_of_lhs? hs
      exact (hp.lexical r hr).1
    structural_rhs := by
      intro id s hs
      obtain ⟨r, hr, hs⟩ := RuleTable.exists_rule_of_mem_rhs hs
      refine ((hp.structural r hr).2 s hs).imp_right fun hlexeme => ⟨hp.lexemes s hlexeme, ?_⟩
      exact Draft.isNullable_of_requireNonempty hnonempty (Or.inl hlexeme)
    discards := hp.discards
    start := hstarts.1
    structural_nullable := fun s => (RuleTable.isNullable_ofRules_iff hstructural s).mpr
    lexical_nullable := fun s => (RuleTable.isNullable_ofRules_iff hlexical s).mpr
    acyclic := Digraph.acc_of_findCycle (Draft.findCycle_of_requireAcyclic hacyclic)
      fun s hs => Draft.aloneFrom_of_le hs
    tiers := by
      refine ⟨p.tiers, fun id r hr => hp.passesOn r ?_, hstarts.2⟩
      exact RuleTable.mem_rules_of_rule? hr }

/-- The grammar of statements is coherent. -/
theorem coherent_of_ofStatements {ss : List Statement} {description : String}
    (h : ofStatements ss description = .ok g) : g.Coherent := by
  rw [ofStatements, bind_eq_ok_iff] at h
  obtain ⟨o, -, h⟩ := h
  rw [bind_eq_ok_iff] at h
  obtain ⟨⟨_, d⟩, hd, h⟩ := h
  obtain ⟨p, rfl, hp, -, -⟩ := Plan.statements_leads (Plan.valid_ofOutline o) ss _ d hd
  exact coherent_of_finish hp h

/-- A grammar came out of a definition or of a grammar text. -/
def IsCompiled (g : Grammar) : Prop :=
  (∃ d : Definition, d.compile = .ok g) ∨
    ∃ text description, (compileText text description).result = .ok g

theorem ofStatements_of_compile {d : Definition} (h : d.compile = .ok g) :
    ofStatements d.statements d.description = .ok g := by
  rw [Definition.compile] at h
  cases hg : ofStatements d.statements d.description with
  | error fault =>
    rw [hg] at h
    cases h
  | ok g' =>
    rw [hg] at h
    exact congrArg Except.ok (Except.ok.inj h)

theorem exists_ofStatements_of_compileUsing {metagrammar : Except CompileError Grammar}
    {text : List Char} {description : String}
    (h : (compileUsing metagrammar text description).result = .ok g) :
    ∃ ss description, ofStatements ss description = .ok g := by
  cases metagrammar with
  | error error => cases h
  | ok m =>
    simp only [compileUsing, compileWith] at h
    split at h
    · cases h
    · split at h
      · cases h
      next ss _ =>
        refine ⟨ss, description, ?_⟩
        simp only [compileStatements] at h
        split at h
        next g' hg =>
          obtain rfl := Except.ok.inj h
          exact hg
        next => cases h

theorem IsCompiled.exists_ofStatements (h : g.IsCompiled) :
    ∃ ss description, ofStatements ss description = .ok g := by
  rcases h with ⟨d, h⟩ | ⟨text, description, h⟩
  · exact ⟨_, _, ofStatements_of_compile h⟩
  · exact exists_ofStatements_of_compileUsing h

theorem IsCompiled.coherent (h : g.IsCompiled) : g.Coherent := by
  obtain ⟨ss, description, h⟩ := h.exists_ofStatements
  exact coherent_of_ofStatements h

end Grammar

namespace Definition

/-- Any number of words of a letter, with blanks between them. -/
def words : Definition :=
  ⟨[.rule "words" [], .rule "words" ["words", "word"], .lexeme "word" ["'a'+"],
    .discarded "' '"], "words"⟩

/-- Sums of letters, which may be added from the left or from the right. -/
def sums : Definition :=
  ⟨[.ruleAction "sum" ["sum", "'+'", "sum"] "add", .rule "sum" ["letter"],
    .lexeme "letter" ["'a'"]], "sums"⟩

end Definition

end Scannerless
