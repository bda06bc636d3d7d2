import Scannerless.Proofs.Evaluation.Meanings
import Scannerless.Proofs.Evaluation.Runs

/-!
# Noted values

An evaluation takes note of the value of every rule that has an action. If symbols have meanings
that rules hand up, each of the noted values has the meaning of a symbol.

## Main definitions

- `Evaluation.Notes` — what a computation notes has a property.
- `Recognition.IsMeant` — a noted value has the meaning of some symbol.

## Main statements

- `Recognition.Explains.notes` — all values that are noted for trees are meant.
- `Recognition.Ended.evaluate_of_gives` — an input comes to what its chosen tree gives.
- `Recognition.Ended.exists_reads_of_chosen` — the chosen tree is one over the tokens.
-/

namespace Scannerless

open Text

/-! ### What computations note -/

namespace Evaluation

variable {V α β : Type} {P : ValueEvent V → Prop} {x : Evaluation V α} {f : α → Evaluation V β}
  {a : α}

/-- All that a computation notes has a property, if what was noted before has it. -/
def Notes (P : ValueEvent V → Prop) (x : Evaluation V α) : Prop :=
  ∀ events, (∀ e ∈ events, P e) → ∀ e ∈ (x.runFrom events).2, P e

theorem Notes.pure : Notes P (Pure.pure a : Evaluation V α) :=
  fun _ hevents => hevents

/-- Only what follows the value that the first computation has is computed. -/
theorem Notes.bind (hx : Notes P x) (hgives : x.Gives a) (hf : Notes P (f a)) :
    Notes P (x >>= f) := by
  intro events hevents
  obtain ⟨events', hrun⟩ := hgives events
  have hnoted := hx events hevents
  rw [hrun] at hnoted
  rw [runFrom_bind, hrun]
  exact hf events' hnoted

end Evaluation

namespace Recognition

variable {V : Type} [Semantic V] {r : Recognition} {l : Lattice} {actions : Registry V}
  {means : SymbolId → List V → List String → Prop}

/-- A noted value has the meaning of some symbol. -/
def IsMeant (means : SymbolId → List V → List String → Prop) (e : ValueEvent V) : Prop :=
  ∃ s words, means s [e.value] words

theorem notes_apply {rule : Rule} {origin stop : Nat} {arguments : List V} {value : V}
    (hvalue : applyRule actions ⟨r.grammar, r.input, rule, min (r.skip origin) stop, stop⟩
      arguments = .ok value) {words : List String} (hmeans : means rule.lhs [value] words) :
    Evaluation.Notes (IsMeant means) (r.apply actions rule origin stop arguments) := by
  intro events hevents
  rw [runFrom_apply]
  simp only [hvalue]
  intro e he
  rcases Array.mem_push.mp he with he | rfl
  · exact hevents e he
  · exact ⟨rule.lhs, words, hmeans⟩

namespace Explains

/-- The arguments of one more tree note what it notes, if it is kept. -/
theorem notes_concat {rule : Rule} {ss : List SymbolId} {ts : List Tree} {tree : Tree}
    {i k : Nat} (hss : r.ExplainedAll l actions means ss ts i k)
    (hts : Evaluation.Notes (IsMeant means) (Tree.argumentsFrom r actions rule 0 ts))
    {values : List V} (hgives : (tree.arguments r actions).Gives values)
    (htree : Evaluation.Notes (IsMeant means) (tree.arguments r actions)) :
    Evaluation.Notes (IsMeant means) (Tree.argumentsFrom r actions rule 0 (ts ++ [tree])) := by
  obtain ⟨parts, -, -, hvalues⟩ := hss
  rw [Tree.argumentsFrom_concat]
  refine hts.bind (hvalues rule) ?_
  split
  · exact htree.bind hgives .pure
  · exact Evaluation.Notes.pure.bind .pure .pure

/-- The value of a rule is noted behind what its children note. -/
theorem notes_node (h : r.Explains l actions means) {id : RuleId} {rule : Rule} {i j : Nat}
    {us : List Tree} (hrule : r.grammar.structural.rule? id = some rule)
    (hus : r.ExplainedAll l actions means rule.rhs us i j)
    (hnotes : Evaluation.Notes (IsMeant means) (Tree.argumentsFrom r actions rule 0 us)) :
    Evaluation.Notes (IsMeant means) ((Tree.node id i j us).arguments r actions) := by
  obtain ⟨parts, hparts, -, hvalues⟩ := hus
  have hmeans := h.rule id rule hrule parts hparts
  rw [Tree.arguments, hrule]
  refine hnotes.bind (hvalues rule) ?_
  simp only at hmeans
  cases hsplice : rule.isSplice with
  | true => exact .pure
  | false =>
    rw [hsplice] at hmeans
    obtain ⟨value, hvalue, hmeans⟩ := hmeans (min (r.skip i) j) j
    exact (notes_apply hvalue hmeans).bind (gives_apply hvalue) .pure

/-- All values that are noted for the trees of a list of symbols are meant. -/
theorem notesAll (h : r.Explains l actions means) (hi : r.grammar.structural.Indexed)
    {ss : List SymbolId} {i j : Nat} {ts : List Tree}
    (hts : r.grammar.structural.Reads l ss i j ts) (rule : Rule) :
    Evaluation.Notes (IsMeant means) (Tree.argumentsFrom r actions rule 0 ts) := by
  induction hts generalizing rule with
  | nil => exact .pure
  | token hss hs hj ih =>
    obtain ⟨part, -, -, hgives⟩ := h.explained_token hs hj
    refine notes_concat (h.explainedAll hi hss) (ih rule) hgives ?_
    rw [Tree.arguments]
    exact .pure
  | @node _ _ _ _ _ _ s id hss hid hus ihss ihus =>
    obtain ⟨rule', hrule, rfl⟩ := Option.map_eq_some_iff.mp ((hi s id).mp hid)
    rw [RuleTable.rhs_of_rule? hrule] at hus
    have hexplained := h.explainedAll hi hus
    obtain ⟨part, -, -, hgives⟩ := h.explained_node hrule hexplained
    exact notes_concat (h.explainedAll hi hss) (ihss rule) hgives
      (h.notes_node hrule hexplained (ihus rule'))

/-- All values that are noted for a tree are meant. -/
theorem notes (h : r.Explains l actions means) (hi : r.grammar.structural.Indexed)
    {s : SymbolId} {i j : Nat} {tree : Tree}
    (htree : r.grammar.structural.Reads l [s] i j [tree]) :
    Evaluation.Notes (IsMeant means) (tree.arguments r actions) := by
  rcases htree.singleton_cases with ⟨hs, hj, heq⟩ | ⟨id, us, hid, hus, heq⟩
  · obtain rfl := List.singleton_inj.mp heq
    rw [Tree.arguments]
    exact .pure
  · obtain rfl := List.singleton_inj.mp heq
    obtain ⟨rule, hrule, rfl⟩ := Option.map_eq_some_iff.mp ((hi s id).mp hid)
    rw [RuleTable.rhs_of_rule? hrule] at hus
    exact h.notes_node hrule (h.explainedAll hi hus) (h.notesAll hi hus rule)

end Explains

variable {tree : Tree}

/-- An input comes to the value that the chosen tree gives. -/
theorem Ended.evaluate_of_gives (hr : r.Ended) (hchosen : r.Chosen tree) {value : V}
    (hgives : (tree.arguments r actions).Gives [value]) : (r.evaluate actions).1 = .ok value := by
  have hvalue : (tree.evaluate r actions).Gives value := by
    rw [Tree.evaluate]
    exact hgives.bind .pure
  obtain ⟨events, hrun⟩ := hvalue #[]
  rw [hr.evaluate_eq actions hchosen, hrun]

/-- The chosen tree is a tree of the start symbol over the tokens that were read, behind which
    everything is discarded. -/
theorem Ended.exists_reads_of_chosen (hr : r.Ended) (h : r.Chosen tree) :
    ∃ p, r.grammar.structural.Reads r.lattice [r.grammar.start] 0 p [tree] ∧
      r.input.size ≤ r.grammar.skipEnd r.input p := by
  obtain ⟨root, it, us, hroot, hit, hus, rfl⟩ := h
  obtain ⟨heq, rule, hrule, hlhs⟩ := hr.chooseRoot_cases hroot hit
  have horigin : it.origin = 0 := congrArg Item.origin heq
  have hreads := hr.reads_of_follows hroot hit hus
  have hid : it.rule ∈ r.grammar.structural.rulesFor r.grammar.start :=
    (hr.coherent.structural _ _).mpr (Option.map_eq_some_iff.mpr ⟨rule, hrule, hlhs⟩)
  rw [horigin] at hreads ⊢
  refine ⟨root.set, .of_rule hid hreads, ?_⟩
  rw [← hr.skip_eq (isEmpty_of_item? hit)]
  exact (hr.mem_roots_iff.mp (mem_of_mostPreferred hroot)).1

end Recognition

end Scannerless
