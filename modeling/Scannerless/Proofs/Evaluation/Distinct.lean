import Scannerless.Proofs.Evaluation.Meanings

/-!
# Trees that are told apart by their values

If every symbol hands up one value, which is kept, and this value tells which rule it comes from
and what the rule got, then two trees of a symbol that begin at one place and come to the same
value are the same tree.

## Main definitions

- `Recognition.outcome` — what a rule hands up.
- `Recognition.Distinguishes` — values tell where they come from.

## Main statements

- `Recognition.Distinguishes.eq_of_gives` — trees with the same value are the same.
-/

namespace Scannerless

open Text

namespace Recognition

variable {V : Type} [Semantic V] {r : Recognition} {l : Lattice} {actions : Registry V}
  {means : SymbolId → List V → List String → Prop}

/-- What a rule hands up: all that it got if it is a spliced one, or else the value of its
    action. -/
def outcome (r : Recognition) (actions : Registry V) (rule : Rule) (start stop : Nat)
    (values : List V) : Except RunError (List V) :=
  if rule.isSplice then .ok values
  else (applyRule actions ⟨r.grammar, r.input, rule, start, stop⟩ values).map ([·])

/-- Values tell which token, or which rule with which values, they come from. -/
structure Distinguishes (r : Recognition) (l : Lattice) (actions : Registry V)
    (means : SymbolId → List V → List String → Prop) : Prop where
  one : ∀ s values words, means s values words → ∃ value, values = [value]
  mask : ∀ id rule, r.grammar.structural.rule? id = some rule →
    rule.mask = rule.rhs.map fun _ => true
  token : ∀ i s j j', l.token i s j → l.token i s j' →
    (Semantic.ofLexeme (r.input.between (l.start i) j) : V) =
      Semantic.ofLexeme (r.input.between (l.start i) j') → j = j'
  rule : ∀ id rule, r.grammar.structural.rule? id = some rule →
    ∀ id' rule', r.grammar.structural.rule? id' = some rule' → rule.lhs = rule'.lhs →
    ∀ parts parts' : List (Portion V),
      List.Forall₂ (fun s part => means s part.values part.words) rule.rhs parts →
      List.Forall₂ (fun s part => means s part.values part.words) rule'.rhs parts' →
      ∀ start stop start' stop' values,
        r.outcome actions rule start stop (parts.flatMap Portion.values) = .ok values →
        r.outcome actions rule' start' stop' (parts'.flatMap Portion.values) = .ok values →
        id = id' ∧ parts.flatMap Portion.values = parts'.flatMap Portion.values

/-- A rule that keeps all that some symbols hand up. -/
def KeepsAll (rule : Rule) (ss : List SymbolId) : Prop :=
  ∀ k < ss.length, rule.keeps k = true

theorem KeepsAll.of_mask {rule : Rule} (h : rule.mask = rule.rhs.map fun _ => true) :
    KeepsAll rule rule.rhs := by
  intro k hk
  rw [Rule.keeps, h, List.getD_eq_getElem?_getD, List.getElem?_map, List.getElem?_eq_getElem hk]
  rfl

theorem KeepsAll.front {rule : Rule} {ss : List SymbolId} {s : SymbolId}
    (h : KeepsAll rule (ss ++ [s])) : KeepsAll rule ss :=
  fun k hk => h k (by rw [List.length_append]; omega)

/-- What a tree with a rule on top gives is what the rule hands up. -/
theorem outcome_of_gives {id : RuleId} {rule : Rule} {i j : Nat} {us : List Tree}
    (hrule : r.grammar.structural.rule? id = some rule) {values got : List V}
    (hus : (Tree.argumentsFrom r actions rule 0 us).Gives got)
    (hgives : ((Tree.node id i j us).arguments r actions).Gives values) :
    r.outcome actions rule (min (r.skip i) j) j got = .ok values := by
  rw [Tree.arguments, hrule] at hgives
  rw [outcome]
  cases hsplice : rule.isSplice with
  | true =>
    simp only [hsplice, if_true] at hgives ⊢
    rw [hgives.unique (hus.bind .pure)]
  | false =>
    simp only [hsplice, Bool.false_eq_true, if_false] at hgives ⊢
    cases hvalue : applyRule actions
        ⟨r.grammar, r.input, rule, min (r.skip i) j, j⟩ got with
    | ok value =>
      rw [hgives.unique (hus.bind ((gives_apply hvalue).bind .pure))]
      rfl
    | error e =>
      -- Without a value of the action there is none of the tree.
      obtain ⟨events, hrun⟩ := hus #[]
      obtain ⟨events', hrun'⟩ := hgives #[]
      rw [Evaluation.runFrom_bind, hrun] at hrun'
      simp only [Evaluation.runFrom_bind, Scannerless.Recognition.runFrom_apply, hvalue] at hrun'
      cases hrun'

/-- What trees give to a rule that keeps it all ends with what the last one gives. -/
theorem eq_append_of_gives {rule : Rule} {ss : List SymbolId} {s : SymbolId}
    (hkeeps : KeepsAll rule (ss ++ [s])) {ts : List Tree} {tree : Tree}
    (hlength : ts.length = ss.length) {front back values : List V}
    (hfront : (Tree.argumentsFrom r actions rule 0 ts).Gives front)
    (hback : (tree.arguments r actions).Gives back)
    (hvalues : (Tree.argumentsFrom r actions rule 0 (ts ++ [tree])).Gives values) :
    values = front ++ back := by
  rw [Tree.argumentsFrom_concat, Nat.zero_add, hlength, hkeeps ss.length (by simp)] at hvalues
  exact hvalues.unique (hfront.bind (hback.bind .pure))

namespace Distinguishes

/-- Values that two lists of trees give are the same in front, and those of the last trees are
    the same. -/
theorem exists_front (hd : r.Distinguishes l actions means) (h : r.Explains l actions means)
    (hi : r.grammar.structural.Indexed) {ss : List SymbolId} {s : SymbolId} {i k k' j j' : Nat}
    {ts ts' : List Tree} {tree tree' : Tree} (hts : r.grammar.structural.Reads l ss i k ts)
    (hts' : r.grammar.structural.Reads l ss i k' ts')
    (htree : r.Explained l actions means s tree k j)
    (htree' : r.Explained l actions means s tree' k' j') {rule : Rule}
    (hkeeps : KeepsAll rule (ss ++ [s])) {values : List V}
    (hvalues : (Tree.argumentsFrom r actions rule 0 (ts ++ [tree])).Gives values)
    (hvalues' : (Tree.argumentsFrom r actions rule 0 (ts' ++ [tree'])).Gives values) :
    ∃ front last, (Tree.argumentsFrom r actions rule 0 ts).Gives front ∧
      (Tree.argumentsFrom r actions rule 0 ts').Gives front ∧
      (tree.arguments r actions).Gives last ∧ (tree'.arguments r actions).Gives last := by
  obtain ⟨parts, -, -, hfront⟩ := h.explainedAll hi hts
  obtain ⟨parts', -, -, hfront'⟩ := h.explainedAll hi hts'
  obtain ⟨part, hmeans, -, hlast⟩ := htree
  obtain ⟨part', hmeans', -, hlast'⟩ := htree'
  have hsplit := eq_append_of_gives hkeeps hts.length_eq (hfront rule) hlast hvalues
  have hsplit' := eq_append_of_gives hkeeps hts'.length_eq (hfront' rule) hlast' hvalues'
  obtain ⟨v, hv⟩ := hd.one _ _ _ hmeans
  obtain ⟨v', hv'⟩ := hd.one _ _ _ hmeans'
  obtain ⟨heq, hsame⟩ := List.append_inj' (hsplit.symm.trans hsplit') (by rw [hv, hv']; rfl)
  refine ⟨_, _, hfront rule, ?_, hlast, ?_⟩
  · rw [heq]
    exact hfront' rule
  · rw [hsame]
    exact hlast'

/-- Trees with a rule on top that come to the same value have the same rule, and their children
    give it the same values. -/
theorem eq_rule (hd : r.Distinguishes l actions means) (h : r.Explains l actions means)
    (hi : r.grammar.structural.Indexed) {s : SymbolId} {id id' : RuleId} {k j j' : Nat}
    {us us' : List Tree} (hid : id ∈ r.grammar.structural.rulesFor s)
    (hid' : id' ∈ r.grammar.structural.rulesFor s)
    (hus : r.grammar.structural.Reads l (r.grammar.structural.rhs id) k j us)
    (hus' : r.grammar.structural.Reads l (r.grammar.structural.rhs id') k j' us')
    {values : List V} (hgives : ((Tree.node id k j us).arguments r actions).Gives values)
    (hgives' : ((Tree.node id' k j' us').arguments r actions).Gives values) :
    id = id' ∧ ∃ rule got, KeepsAll rule (r.grammar.structural.rhs id) ∧
      (Tree.argumentsFrom r actions rule 0 us).Gives got ∧
      (Tree.argumentsFrom r actions rule 0 us').Gives got := by
  obtain ⟨rule, hrule, hlhs⟩ := Option.map_eq_some_iff.mp ((hi s id).mp hid)
  obtain ⟨rule', hrule', hlhs'⟩ := Option.map_eq_some_iff.mp ((hi s id').mp hid')
  rw [RuleTable.rhs_of_rule? hrule] at hus ⊢
  rw [RuleTable.rhs_of_rule? hrule'] at hus'
  obtain ⟨parts, hparts, -, hgot⟩ := h.explainedAll hi hus
  obtain ⟨parts', hparts', -, hgot'⟩ := h.explainedAll hi hus'
  have hall (parts : List (Portion V)) {rule : Rule} {id : RuleId}
      (hrule : r.grammar.structural.rule? id = some rule)
      (hlength : rule.rhs.length = parts.length) :
      kept rule.mask parts = parts := by
    rw [hd.mask id rule hrule, kept_of_all hlength]
  have hgot := hgot rule
  have hgot' := hgot' rule'
  rw [hall parts hrule hparts.length_eq] at hgot
  rw [hall parts' hrule' hparts'.length_eq] at hgot'
  obtain ⟨rfl, hsame⟩ := hd.rule id rule hrule id' rule' hrule' (hlhs.trans hlhs'.symm) parts parts'
    hparts hparts' _ _ _ _ _ (outcome_of_gives hrule hgot hgives)
    (outcome_of_gives hrule' hgot' hgives')
  obtain rfl := Option.some_inj.mp (hrule.symm.trans hrule')
  exact ⟨rfl, rule, _, .of_mask (hd.mask id rule hrule), hgot, hsame ▸ hgot'⟩

/-- Lists of trees that begin at one place and give the same values are the same. -/
theorem eq_of_givesAll (hd : r.Distinguishes l actions means) (h : r.Explains l actions means)
    (hi : r.grammar.structural.Indexed) {ss : List SymbolId} {i j j' : Nat} {ts ts' : List Tree}
    (hts : r.grammar.structural.Reads l ss i j ts)
    (hts' : r.grammar.structural.Reads l ss i j' ts') {rule : Rule} (hkeeps : KeepsAll rule ss)
    {values : List V} (hvalues : (Tree.argumentsFrom r actions rule 0 ts).Gives values)
    (hvalues' : (Tree.argumentsFrom r actions rule 0 ts').Gives values) : ts = ts' ∧ j = j' := by
  induction hts generalizing ts' j' rule values with
  | nil i =>
    obtain ⟨rfl, rfl⟩ := hts'.nil_inv
    exact ⟨rfl, rfl⟩
  | @token ss i k j ts s hss hs hj ih =>
    obtain ⟨k', us, hus, ⟨-, hj', rfl⟩ | ⟨id, -, hid, -, -⟩⟩ := hts'.concat_cases
    · obtain ⟨front, last, hfront, hfront', hlast, hlast'⟩ := hd.exists_front h hi hss hus
        (h.explained_token hs hj) (h.explained_token hs hj') hkeeps hvalues hvalues'
      obtain ⟨rfl, rfl⟩ := ih hus hkeeps.front hfront hfront'
      rw [Tree.arguments] at hlast hlast'
      have hsame := (hlast.unique .pure).symm.trans (hlast'.unique .pure)
      obtain rfl := hd.token _ _ _ _ hj hj' (List.singleton_inj.mp hsame)
      exact ⟨rfl, rfl⟩
    · rw [RuleTable.hasRules_of_mem hid] at hs
      cases hs
  | @node ss i k j ts us s id hss hid hus ihss ihus =>
    obtain ⟨k', ts', hss', ⟨hs, -, -⟩ | ⟨id', us', hid', hus', rfl⟩⟩ := hts'.concat_cases
    · rw [RuleTable.hasRules_of_mem hid] at hs
      cases hs
    · obtain ⟨front, last, hfront, hfront', hlast, hlast'⟩ := hd.exists_front h hi hss hss'
        (h.reads hi (.of_rule hid hus)) (h.reads hi (.of_rule hid' hus')) hkeeps hvalues hvalues'
      obtain ⟨rfl, rfl⟩ := ihss hss' hkeeps.front hfront hfront'
      obtain ⟨rfl, rule', got, hkeeps', hgot, hgot'⟩ :=
        hd.eq_rule h hi hid hid' hus hus' hlast hlast'
      obtain ⟨rfl, rfl⟩ := ihus hus' hkeeps' hgot hgot'
      exact ⟨rfl, rfl⟩

/-- Trees of a symbol that begin at one place and come to the same value are the same. -/
theorem eq_of_gives (hd : r.Distinguishes l actions means) (h : r.Explains l actions means)
    (hi : r.grammar.structural.Indexed) {s : SymbolId} {i j j' : Nat} {tree tree' : Tree}
    (htree : r.grammar.structural.Reads l [s] i j [tree])
    (htree' : r.grammar.structural.Reads l [s] i j' [tree']) {values : List V}
    (hgives : (tree.arguments r actions).Gives values)
    (hgives' : (tree'.arguments r actions).Gives values) : tree = tree' := by
  let rule : Rule := ⟨s, [s], "", .splice, [true], 0⟩
  have hone {t : Tree} (ht : (t.arguments r actions).Gives values) :
      (Tree.argumentsFrom r actions rule 0 [t]).Gives (values ++ []) := by
    rw [Tree.argumentsFrom, Tree.argumentsFrom]
    exact ht.bind (Evaluation.Gives.pure.bind .pure)
  obtain ⟨hsame, -⟩ := hd.eq_of_givesAll h hi htree htree' (.of_mask rfl : KeepsAll rule [s])
    (hone hgives) (hone hgives')
  exact List.singleton_inj.mp hsame

end Distinguishes

end Recognition

end Scannerless
