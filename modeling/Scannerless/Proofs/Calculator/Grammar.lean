import Scannerless.Proofs.Calculator.Rules
import Scannerless.Proofs.GrammarText.Agreement
import Scannerless.Proofs.GrammarText.Arrangement

/-!
# The grammar of expressions

The grammar text of the calculator is arranged out of the statements, so its grammar is theirs.
The rules of this grammar are told by the parts of their left sides and by what they do with
values.

## Main statements

- `Calculator.exists_conforms` — the grammar of the calculator conforms.
- `Calculator.Conforms.exists_production`, `Conforms.exists_rule` — rules and productions.
- `Calculator.Conforms.eq_of_production` — a production has one rule.
-/

namespace Scannerless.Calculator

open Text GrammarText

set_option maxRecDepth 4000 in
/-- The grammar text is made of the words of the statements. -/
theorem exists_isArranged : ∃ text, grammarText = String.ofList text ∧
    isArranged (statements.flatMap Statement.words) text = true := by
  refine ⟨_, rfl, ?_⟩
  decide +kernel

theorem statements_in : ∀ s ∈ statements, s.In plainVocabulary := by
  decide +kernel

/-- The grammar of a text. As a function it is unfolded without being computed. -/
def grammarOf (text description : String) : Except CompileError Grammar :=
  (compileText text description).result

theorem grammarOf_eq :
    grammarOf = fun text description => (compileText text description).result :=
  rfl

theorem grammar_eq : grammar = grammarOf grammarText description :=
  rfl

/-- The grammar of the calculator conforms. -/
theorem exists_conforms : ∃ g, grammar = .ok g ∧ Conforms g := by
  obtain ⟨g, hg, hconforms⟩ := exists_conforms_statements
  refine ⟨g, ?_, hconforms⟩
  obtain ⟨text, htext, harranged⟩ := exists_isArranged
  have harranges : Arranges (statements.flatMap Statement.words) grammarText.toList := by
    rw [htext, String.toList_ofList]
    exact arranges_of_isArranged harranged
  have hsame := compileText_of_arranges
    (fun s hs => (statements_in s hs).mono plainVocabulary_within) harranges description
  rw [hg] at hsame
  rw [grammar_eq, grammarOf_eq]
  exact hsame.eq_ok

/-! ### Rules and productions -/

/-- A production is told by its left side and what it does with values. -/
theorem eq_of_semantics : ∀ p ∈ productions, ∀ p' ∈ productions, p.lhs = p'.lhs →
    p.semantics = p'.semantics → p = p' := by
  decide +kernel

theorem nodup_rows : (productions.map Production.row).Nodup := by
  decide +kernel

theorem mem_all : ∀ p ∈ productions, ∀ q ∈ p.lhs :: p.rhs, q ∈ Part.all := by
  decide +kernel

namespace Conforms

variable {g : Grammar} {id id' : RuleId} {rule rule' : Rule}

/-- The rules are those of the productions. -/
theorem exists_production (h : Conforms g) (hrule : g.structural.rule? id = some rule) :
    ∃ p ∈ Calculator.productions, row g rule = p.row := by
  have hmem : row g rule ∈ g.structural.rules.toList.map (row g) :=
    List.mem_map_of_mem (RuleTable.mem_rules_of_rule? hrule)
  rw [h.rules] at hmem
  obtain ⟨p, hp, hrow⟩ := List.mem_map.mp hmem
  exact ⟨p, hp, hrow.symm⟩

theorem exists_rule (h : Conforms g) {p : Production} (hp : p ∈ Calculator.productions) :
    ∃ id rule, g.structural.rule? id = some rule ∧ row g rule = p.row := by
  have hmem : p.row ∈ Calculator.productions.map Production.row := List.mem_map_of_mem hp
  rw [← h.rules] at hmem
  obtain ⟨rule, hrule, hrow⟩ := List.mem_map.mp hmem
  obtain ⟨id, hid, rfl⟩ := Array.getElem_of_mem (Array.mem_toList_iff.mp hrule)
  exact ⟨id, _, Array.getElem?_eq_getElem hid, hrow⟩

/-- A production has one rule. -/
theorem eq_of_production (h : Conforms g) (hrule : g.structural.rule? id = some rule)
    (hrule' : g.structural.rule? id' = some rule') (hrow : row g rule = row g rule') :
    id = id' := by
  have hnodup : (g.structural.rules.toList.map (row g)).Nodup := h.rules ▸ nodup_rows
  have hget {id : RuleId} {rule : Rule} (hrule : g.structural.rule? id = some rule) :
      (g.structural.rules.toList.map (row g))[id]? = some (row g rule) := by
    rw [List.getElem?_map, Array.getElem?_toList]
    exact congrArg (Option.map (row g)) hrule
  have hlt := (List.getElem?_eq_some_iff.mp (hget hrule)).1
  exact (List.getElem?_inj hlt hnodup).mp ((hget hrule).trans (hrow ▸ (hget hrule').symm))

end Conforms

end Scannerless.Calculator
