import Scannerless.Proofs.Evaluation.Contexts
import Scannerless.Proofs.Grammar.Alternatives

/-!
# Arguments of actions

The action of an alternative gets one argument for each element that is written in it: the
text of a token, or the value of the rule of an alternative or of a sequence, however many
spliced rules lead to it from the name in the element. The value of an input is that of one
such rule, too.

## Main statements

- `Tree.evaluate_of_leaves` — the value of a tree with one leaf is that of the leaf.
- `arguments_exact` — the arguments of the actions of a definition.
-/

namespace Scannerless

/-- The value of a tree with one leaf is that of the leaf. -/
theorem Tree.evaluate_of_leaves {V : Type} [Semantic V] {r : Recognition} {actions : Registry V}
    {tree leaf : Tree} (h : tree.leaves r.grammar.structural = [leaf]) :
    tree.evaluate r actions = leaf.evaluate r actions := by
  rw [evaluate, arguments_eq_mapM, h]
  simp

/-- If a definition is that of the start symbol, the chosen tree has one leaf, which has a rule of
    the name on top. -/
theorem Footprint.LeftAmong.exists_leaf_of_start {f : Footprint} {ss before after : List Statement}
    {spelling : String} {tiers : List (List Alternative)} {offset : Nat} {o : Outline} {d : Draft}
    {r : Recognition} {tree : Tree}
    (hf : f.LeftAmong ss before after spelling tiers offset r.grammar o d)
    (h : Lowered ss r.grammar o d) (hr : r.Ended) (hchosen : r.Chosen tree)
    (hstart : r.grammar.StandsFor spelling r.grammar.start) :
    ∃ id origin stop us, tree.leaves r.grammar.structural = [.node id origin stop us] ∧
      r.grammar.Authored ss f.name id := by
  obtain ⟨root, it, rule, us, hroot, rfl, happlies⟩ := hr.exists_appliesIn_root hchosen
  obtain ⟨-, rule', hrule', hlhs⟩ := hr.chooseRoot_cases hroot happlies.item
  obtain rfl := Option.some.inj (happlies.rule.symm.trans hrule')
  obtain ⟨id, vs, hleaves, hid⟩ := h.exists_leaf hf.structuralId? happlies.rule
    (hlhs.trans (hf.lhs_eq h hstart).symm) (hr.reads_of_appliesIn hchosen happlies).1
  exact ⟨id, it.origin, root.set, vs, hleaves, hid⟩

section

variable {V : Type} [Semantic V]

/-- Whenever the rule of an alternative is reduced on the way to the value of an accepted
    input, it takes off as many values as the alternative has elements. They are the values of
    the leaves of the trees below it, which have one leaf each. It fills the place of its
    element: it is a token, or has a rule that a definition of the name in the element writes.
    If the definition is that of the start symbol, the value of the input is that of a single
    rule that a definition of the name writes, and a spliced rule on top takes off that value
    only. -/
theorem arguments_exact {ss before after : List Statement} {description spelling : String}
    {tiers : List (List Alternative)} {offset : Nat} {g : Grammar} {limit : Option Nat}
    {input : String} {r : Recognition} (h : Grammar.ofStatements ss description = .ok g)
    (hss : ss = before ++ .structural spelling tiers offset :: after) (hno : ¬IsSequence tiers)
    (hr : recognize g limit input = .ok r) (hok : r.failure? = none) (actions : Registry V) :
    ∃ name first root tree, Element.decode spelling = .ok (.name name) ∧
      r.chooseRoot = some root ∧ r.Chosen tree ∧
      (∀ id, Statement.Adds ss before (.structural spelling tiers offset) id ∧
        g.structural.isSplice id = false ↔ first ≤ id ∧ id < first + tiers.flatten.length) ∧
      (∀ m, Passes (Machine.step r actions) (Machine.initial root) m →
        ∀ ref count rest, m.tasks = .reduce ref count :: rest →
          ∃ it rule us, r.AppliesIn tree ref it rule us ∧
            (∀ k alt, tiers.flatten[k]? = some alt → it.rule = first + k →
              (∃ adverbs, RuleAdverbs.read false alt.adverbs = .ok adverbs ∧
                rule.semantics = .apply adverbs.action) ∧
              count = alt.rhs.length ∧ count ≤ m.values.length ∧
              ∃ leaves, List.Forall₂ (fun u leaf => u.leaves g.structural = [leaf]) us leaves ∧
                List.Forall₂ (fun item leaf => g.Fills ss item.element leaf) alt.rhs leaves ∧
                List.Forall₂ (fun leaf v => (leaf.evaluate r actions).Gives v) leaves
                  (m.values.take count).reverse) ∧
            (g.StandsFor spelling g.start → rule.isSplice = true → count = 1)) ∧
      (g.StandsFor spelling g.start → ∃ id origin stop us,
        tree.leaves g.structural = [.node id origin stop us] ∧ g.Authored ss name id ∧
        (2 ≤ tiers.length → first ≤ id ∧ id < first + tiers.flatten.length) ∧
        r.evaluate actions = ((Tree.node id origin stop us).evaluate r actions).runFrom #[]) := by
  obtain ⟨o, d, hlowered⟩ := Lowered.exists_of_ofStatements h
  obtain ⟨f, hf, hadds⟩ := hlowered.exists_footprint hss
  have hamong : f.LeftAmong ss before after spelling tiers offset g o d := ⟨hf, hss, hadds⟩
  obtain ⟨first, rules, hrules, hrule, hnumbers⟩ := hamong.exists_alternatives hlowered hno
  obtain ⟨rfl, -, hended⟩ := hlowered.coherent.ended hr
  obtain ⟨tree, hchosen⟩ := hended.exists_chosen hok
  obtain ⟨root, it₀, rule₀, us₀, hroot, htree, hroot₀⟩ := hended.exists_appliesIn_root hchosen
  have hnumbers := hrules.length_eq ▸ hnumbers
  refine ⟨f.name, first, root, tree, hf.decode, hroot, hchosen, fun id => ?_,
    fun m hm ref count rest htasks => ?_, fun hstart => ?_⟩
  · rw [hadds]
    exact hnumbers id
  · obtain ⟨it, rule, us, happlies, rfl, hle, hsplice, hgives⟩ :=
      (Machine.Amid.of_passes hended hroot₀ hm).reduces hended hroot₀ htasks
    refine ⟨it, rule, us, happlies, fun k alt halt hid => ?_, fun hstart hsplices => ?_⟩
    · obtain ⟨hk, rfl⟩ := List.getElem?_eq_some_iff.mp halt
      have hk' : k < rules.length := hrules.length_eq ▸ hk
      have hrealizes : r.grammar.Realizes ss tiers.flatten[k] rules[k] := hrules.get hk hk'
      have hsame := hrule k _ (List.getElem?_eq_getElem hk')
      rw [← hid, happlies.rule] at hsame
      obtain rfl := Option.some.inj hsame
      obtain ⟨hsingle, hfills⟩ :=
        hrealizes.forall₂_leaves (hended.reads_of_appliesIn hchosen happlies).1
      exact ⟨hrealizes.action, hfills.length_eq.symm, hle, _, hsingle, hfills, hgives⟩
    · have hroot' : ref = root := hsplice.resolve_right (by simp [hsplices])
      obtain ⟨rfl, rfl, rfl⟩ := (hroot' ▸ happlies).unique hended hroot₀
      obtain ⟨_, _, _, _, hleaves, -⟩ :=
        hamong.exists_leaf_of_start hlowered hended hchosen hstart
      rw [htree, Tree.leaves_of_isSplice happlies.rule hsplices] at hleaves
      rw [Recognition.ruleLeaves, hleaves]
      rfl
  · obtain ⟨id, origin, stop, us, hleaves, hid⟩ :=
      hamong.exists_leaf_of_start hlowered hended hchosen hstart
    refine ⟨id, origin, stop, us, hleaves, hid, fun htiers => ?_, ?_⟩
    · exact (hnumbers id).mp ⟨hamong.has_of_authored hlowered htiers hid, hid.1⟩
    rw [hended.evaluate_eq actions hchosen, Tree.evaluate_of_leaves hleaves]

/-- A power has three arguments, and the value of one is that of a letter or of a power. -/
theorem arguments_exact_powers :
    ∃ g r first root tree, Grammar.ofStatements Definition.powers.statements "powers" = .ok g ∧
      recognize g none "a^a" = .ok r ∧ r.chooseRoot = some root ∧ r.Chosen tree ∧
      (∀ m, Passes (Machine.step r (.empty : Registry Value)) (Machine.initial root) m →
        ∀ ref count rest, m.tasks = .reduce ref count :: rest →
          ∃ it rule us, r.AppliesIn tree ref it rule us ∧ (it.rule = first + 1 → count = 3) ∧
            (rule.isSplice = true → count = 1)) ∧
      ∃ id origin stop us, (id = first ∨ id = first + 1) ∧
        tree.leaves g.structural = [.node id origin stop us] ∧
        r.evaluate (.empty : Registry Value) =
          ((Tree.node id origin stop us).evaluate r .empty).runFrom #[] := by
  have htest : (Grammar.ofStatements Definition.powers.statements "powers").toOption.any (fun g =>
      decide (g.findSymbol? "power" = some g.start) &&
        (recognize g none "a^a").toOption.any fun r => r.failure?.isNone) = true := by
    decide +kernel
  obtain ⟨g, hg, htest⟩ := exists_eq_ok_of_any htest
  obtain ⟨hstart, htest⟩ := Bool.and_eq_true_iff.mp htest
  obtain ⟨r, hr, htest⟩ := exists_eq_ok_of_any htest
  have hno : ¬IsSequence [[Alternative.ofItems ["'a'"]],
      [(Alternative.ofItems ["power", "'^'", "power"]).withAdverb "assoc" "right"]] := by
    rintro ⟨alt, item, htiers, -⟩
    cases htiers
  obtain ⟨name, first, root, tree, hname, hroot, hchosen, -, hall, htop⟩ :=
    arguments_exact hg (List.nil_append _).symm hno hr (Option.isNone_iff_eq_none.mp htest)
      (.empty : Registry Value)
  have hpower : g.StandsFor "power" g.start := by
    have hdecode : Element.decode "power" = .ok (.name "power") := by decide +kernel
    rw [Grammar.StandsFor, hdecode]
    exact of_decide_eq_true hstart
  obtain ⟨id, origin, stop, us, hleaves, -, hid, heval⟩ := htop hpower
  refine ⟨g, r, first, root, tree, hg, hr, hroot, hchosen, fun m hm ref count rest htasks => ?_,
    id, origin, stop, us, ?_, hleaves, heval⟩
  · obtain ⟨it, rule, us, happlies, halternative, hsplice⟩ := hall m hm ref count rest htasks
    exact ⟨it, rule, us, happlies, fun hid => (halternative 1 _ rfl hid).2.1, hsplice hpower⟩
  · obtain ⟨hle, hlt⟩ := hid (by decide)
    have hlt : id < first + 2 := hlt
    simp only [RuleId] at hle hlt ⊢
    omega

end

end Scannerless
