import Scannerless.Proofs.Grammar.Authorship

/-!
# Rules of alternatives

The alternatives of a definition that is no sequence have rules that follow one another, in the
order in which they are written, be they in tiers or not. Such a rule keeps the values of all
its symbols, of which there is one for each element. However many spliced rules lead from a
symbol to the rule that is applied below it, a tree of the symbol has one leaf, which fills the
place of its element.

## Main definitions

- `IsSequence` — a definition is that of a sequence.
- `Grammar.Realizes` — a rule is that of an alternative.

## Main statements

- `Footprint.LeftAmong.exists_alternatives` — the rules of the alternatives of a definition.
- `Grammar.Realizes.forall₂_leaves` — the leaves of such a rule.
-/

namespace Scannerless

/-- A definition is that of a sequence: its only element has a quantifier. -/
def IsSequence (tiers : List (List Alternative)) : Prop :=
  ∃ alt item, tiers = [[alt]] ∧ alt.rhs = [item] ∧ item.quantifier ≠ .one

/-- A rule is that of an alternative: it has its action, it keeps all its values, and a tree of
    one of its symbols has one leaf, which fills the place of the element that the symbol
    stands for. -/
structure Grammar.Realizes (ss : List Statement) (g : Grammar) (alt : Alternative) (r : Rule) :
    Prop where
  action : ∃ adverbs, RuleAdverbs.read false alt.adverbs = .ok adverbs ∧
    r.semantics = .apply adverbs.action
  keeps : ∀ k < r.rhs.length, r.keeps k = true
  fills : List.Forall₂ (fun item s => ∀ l i j u, g.structural.Reads l [s] i j [u] →
    ∃ leaf, u.leaves g.structural = [leaf] ∧ g.Fills ss item.element leaf) alt.rhs r.rhs

theorem Grammar.Realizes.isSplice_eq_false {ss : List Statement} {g : Grammar} {alt : Alternative}
    {r : Rule} (h : g.Realizes ss alt r) : r.isSplice = false := by
  obtain ⟨adverbs, -, haction⟩ := h.action
  rw [Rule.isSplice, haction]
  rfl

theorem keeps_alternativeRule {lhs : SymbolId} {rhs : List SymbolId} {name : String}
    {adverbs : RuleAdverbs} {k : Nat} (hk : k < rhs.length) :
    (alternativeRule lhs rhs name adverbs).keeps k = true := by
  rw [Rule.keeps, alternativeRule, List.getD_eq_getElem?_getD, List.getElem?_map,
    List.getElem?_eq_getElem hk]
  rfl

/-- The leaves of the rule of an alternative: one for each tree below it. -/
theorem Grammar.Realizes.forall₂_leaves {ss : List Statement} {g : Grammar} {alt : Alternative}
    {r : Rule} (h : g.Realizes ss alt r) {l : Lattice} {i j : Nat} {us : List Tree}
    (hus : g.structural.Reads l r.rhs i j us) :
    List.Forall₂ (fun u leaf => u.leaves g.structural = [leaf]) us
        (Tree.leavesFrom g.structural r 0 us) ∧
      List.Forall₂ (fun item leaf => g.Fills ss item.element leaf) alt.rhs
        (Tree.leavesFrom g.structural r 0 us) := by
  rw [Tree.leavesFrom_eq_flatMap fun k _ hk => h.keeps k (by
    rwa [Nat.zero_add, hus.length_eq] at hk)]
  have hfills := h.fills
  generalize alt.rhs = items, r.rhs = symbols at hfills hus
  induction hfills generalizing i us with
  | nil =>
    obtain ⟨-, rfl⟩ := hus.nil_inv
    exact ⟨.nil, .nil⟩
  | @cons item s _ _ hitem _ ih =>
    rw [← List.singleton_append] at hus
    obtain ⟨k, front, vs, rfl, hfront, hvs⟩ := hus.of_append
    obtain ⟨u, rfl⟩ := List.length_eq_one_iff.mp hfront.length_eq
    obtain ⟨leaf, hleaf, hfilled⟩ := hitem l i k u hfront
    obtain ⟨hleaves, hall⟩ := ih hvs
    rw [List.singleton_append, List.flatMap_cons, hleaf, List.singleton_append]
    exact ⟨.cons hleaf hleaves, .cons hfilled hall⟩

theorem map_snd_tierAlternatives (tiers : List (List Alternative)) :
    (tierAlternatives tiers).map Prod.snd = tiers.flatten := by
  rw [tierAlternatives, List.map_flatMap]
  simp only [List.map_map, Function.comp_def, List.map_id']
  rw [List.flatMap_def, List.zipIdx_map_fst]

variable {f : Footprint} {ss before after : List Statement} {spelling : String}
  {tiers : List (List Alternative)} {offset : Nat} {g : Grammar} {o : Outline} {d : Draft}
  {T : Tiering} {id : RuleId} {r : Rule} {op : Operator} {alt : Alternative}

/-- The rule of a plain alternative. -/
theorem Lowered.realizes_plain (h : Lowered ss g o d) {lhs : SymbolId} {name : String}
    (hr : d.PlainRule o lhs name alt r) : g.Realizes ss alt r := by
  obtain ⟨adverbs, rhs, hread, hrhs, rfl⟩ := hr
  exact ⟨⟨adverbs, hread, rfl⟩, fun k hk => keeps_alternativeRule hk,
    hrhs.imp fun item s hs l i j u hu => h.fills hs hu⟩

namespace Footprint

/-- The rule of an alternative of a tier. In place of an operand stands the symbol of a tier,
    the trees of which have the leaf that a tree of the name would have. -/
theorem LeftAmong.realizes_operator
    (hf : f.LeftAmong ss before after spelling tiers offset g o d) (h : Lowered ss g o d)
    (htiers : 2 ≤ tiers.length) (hT : f.Tiers tiers o d T) (hop : T.operator? id = some op)
    {p : Nat} (hwritten : Operator.Of (d.StandsFor o) (p, alt) op) :
    g.Realizes ss alt (T.rule f.name op) := by
  have ht := hT.tiered hf.toLeftBy h hf.split htiers
  obtain ⟨htier, -, -, hlevels⟩ := ht.operator id op hop
  refine ⟨⟨op.adverbs, hwritten.adverbs, rfl⟩, fun k hk => keeps_alternativeRule hk, ?_⟩
  have hrhs := hwritten.rhs
  rw [← Tiering.map_written_rhsOf htier ht.lhs hlevels, List.forall₂_map_right_iff] at hrhs
  refine hrhs.imp fun item s hs l i j u hu => ?_
  by_cases hlevel : T.IsLevel s
  · obtain ⟨p, hp, rfl⟩ := Tiering.exists_level hlevel
    obtain ⟨id', op', vs, hleaf, hop', -⟩ := hT.exists_leaf hf.toLeftBy ht hp hu
    rw [Tiering.written_level hp, hT.lhs] at hs
    have hrules : g.structural.hasRules f.lhs = true :=
      ht.indexed.hasRules_of_lhs (hT.lhs ▸ (ht.name _).mpr rfl)
    obtain ⟨name, hdecode, hname⟩ := h.exists_structuralId? hs hrules
    obtain rfl := Outline.structuralId?_inj hf.structuralId? hname
    exact ⟨_, hleaf, .node i j vs hdecode
      (hf.authored (hT.has_of_operator? hop') (hT.isSplice_operator hf.toLeftBy hop'))⟩
  · rw [Tiering.written_of_not_isLevel hlevel] at hs
    exact h.fills hs hu

/-- The rules of a definition in tiers that are not spliced are those of its alternatives. -/
theorem Tiers.has_and_not_isSplice_iff (hT : f.Tiers tiers o d T)
    (hf : f.LeftBy before after spelling tiers g o d) :
    f.Has id ∧ g.structural.isSplice id = false ↔
      T.first + T.count ≤ id ∧ id < T.first + T.count + T.operators.length := by
  constructor
  · rintro ⟨hid, hsplice⟩
    obtain ⟨k, rfl⟩ := Nat.exists_eq_add_of_le hid.1
    have hr := hf.rule? k _ (List.getElem?_eq_getElem (Nat.lt_of_add_lt_add_left hid.2))
    rcases hT.rule_cases hf hid hr with ⟨p, hp, -, heq⟩ | ⟨op, hop, -⟩
    · rw [RuleTable.isSplice_eq hr, heq, Tiering.isSplice_splice] at hsplice
      cases hsplice
    · obtain ⟨n, heq, hn⟩ := Tiering.operator?_eq_some hop
      rw [heq, ← Nat.add_assoc]
      exact ⟨Nat.le_add_right _ _, Nat.add_lt_add_left (List.getElem?_eq_some_iff.mp hn).1 _⟩
  · rintro ⟨hle, hlt⟩
    obtain ⟨k, rfl⟩ := Nat.exists_eq_add_of_le hle
    have hop := Tiering.operator?_add.trans
      (List.getElem?_eq_getElem (Nat.lt_of_add_lt_add_left hlt))
    exact ⟨hT.has_of_operator? hop, hT.isSplice_operator hf hop⟩

/-- The rules of the alternatives of a definition in tiers, in the order they are written. -/
theorem LeftAmong.realizes_operators
    (hf : f.LeftAmong ss before after spelling tiers offset g o d) (h : Lowered ss g o d)
    (htiers : 2 ≤ tiers.length) (hT : f.Tiers tiers o d T) :
    List.Forall₂ (g.Realizes ss) tiers.flatten (T.operators.map (T.rule f.name)) := by
  rw [← map_snd_tierAlternatives, List.forall₂_map_left_iff, List.forall₂_map_right_iff,
    List.forall₂_iff_get]
  refine ⟨hT.operators.length_eq, fun k hk hk' => ?_⟩
  have hop : T.operator? (T.first + T.count + k) = some (T.operators.get ⟨k, hk'⟩) := by
    rw [Tiering.operator?_add, List.getElem?_eq_getElem hk']
    rfl
  exact hf.realizes_operator h htiers hT hop (hT.operators.get hk hk')

/-- The rules of the alternatives of a definition follow one another. They are those of the
    definition that are not spliced. -/
theorem LeftAmong.exists_alternatives
    (hf : f.LeftAmong ss before after spelling tiers offset g o d) (h : Lowered ss g o d)
    (hno : ¬IsSequence tiers) :
    ∃ first rules, List.Forall₂ (g.Realizes ss) tiers.flatten rules ∧
      (∀ k r, rules[k]? = some r → g.structural.rule? (first + k) = some r) ∧
      ∀ id, f.Has id ∧ g.structural.isSplice id = false ↔
        first ≤ id ∧ id < first + rules.length := by
  have hlowers := hf.lowers
  generalize hrules : f.rules = rules at hlowers
  cases hlowers with
  | plain _ hplain =>
    subst hrules
    have hall := hplain.imp fun alt r hr => h.realizes_plain hr
    refine ⟨f.first, f.rules, ?_, hf.rule?, fun id => ⟨And.left, fun hid => ⟨hid, ?_⟩⟩⟩
    · rwa [List.flatten_singleton]
    · obtain ⟨k, rfl⟩ := Nat.exists_eq_add_of_le hid.1
      have hk := List.getElem?_eq_getElem (Nat.lt_of_add_lt_add_left hid.2)
      rw [RuleTable.isSplice_eq (hf.rule? k _ hk)]
      obtain ⟨alt, -, hr⟩ := exists_mem_of_forall₂ hall.flip (List.mem_of_getElem? hk)
      exact hr.isSplice_eq_false
  | @sequence alt item _ hitem hq _ _ _ =>
    refine absurd ⟨alt, item, rfl, hitem, ?_⟩ hno
    rcases hq with hq | hq <;> simp [hq]
  | tiers hne _ _ _ =>
    have htwo := hf.two_le_length h hne
    obtain ⟨T, hT⟩ := hf.exists_tiers h.orderly htwo
    refine ⟨T.first + T.count, T.operators.map (T.rule f.name),
      hf.realizes_operators h htwo hT, fun k r hr => ?_, fun id => ?_⟩
    · rw [List.getElem?_map, Option.map_eq_some_iff] at hr
      obtain ⟨op, hop, rfl⟩ := hr
      exact hT.rule?_operator hf.toLeftBy (Tiering.operator?_add.trans hop)
    · rw [List.length_map]
      exact hT.has_and_not_isSplice_iff hf.toLeftBy

end Footprint

end Scannerless
