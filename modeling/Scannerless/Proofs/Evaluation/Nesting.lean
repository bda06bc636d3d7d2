import Scannerless.Proofs.Evaluation.Notes
import Scannerless.Proofs.Grammar.Operands
import Scannerless.Proofs.Recognition.ChosenTree

/-!
# Nesting of operators

In the tree that is evaluated an alternative of a tier behind the first nests on the side that
its associativity says: it has none of its own tier on top of an operand on the other side. In
the first tier, which has none that is tighter next to it, all operands have the first tier on
top, and how they nest is left to the policy of choices.

## Main statements

- `associativity_nests` — how operators nest in the tree that is evaluated.
- `associativity_fails_differences` — differences in the first tier, which nest to the right.
-/

namespace Scannerless

/-- In the tree that is evaluated the operands of a definition in tiers nest as the
    associativity says in all tiers but the first. The rule of an alternative of the first tier
    has the symbol of that tier for all its operands, be it left or right, so that all of them
    have the first tier on top. -/
theorem associativity_nests {ss before after : List Statement} {description spelling : String}
    {tiers : List (List Alternative)} {offset : Nat} {g : Grammar} {limit : Option Nat}
    {input : String} {r : Recognition} (h : Grammar.ofStatements ss description = .ok g)
    (hss : ss = before ++ .structural spelling tiers offset :: after)
    (htiers : 2 ≤ tiers.length) (hr : recognize g limit input = .ok r)
    (hok : r.failure? = none) :
    ∃ (T : Tiering) (tree : Tree), T.Of ss before spelling tiers offset g ∧ r.Chosen tree ∧
      (∀ p, 0 < p → T.Nests p tree) ∧
      ∀ id op, T.operator? id = some op → op.tier = 0 → op.adverbs.associativity ≠ .group →
        (T.rhsOf op = op.rhs.map fun s => if s = T.lhs then T.level 0 else s) ∧
        ∀ i j us (k : Nat) u, tree.HasPart (.node id i j us) →
          (T.operands op.rhs (Tree.contractAll T.spliced us))[k]? = some u →
          T.tier? u = some 0 := by
  obtain ⟨o, d, hlowered⟩ := Lowered.exists_of_ofStatements h
  obtain ⟨f, T, -, -, htiered, hof⟩ := hlowered.exists_tiering hss htiers
  obtain ⟨rfl, -, hended⟩ := hlowered.coherent.ended hr
  obtain ⟨tree, hchosen⟩ := hended.exists_chosen hok
  obtain ⟨p, hreads, -⟩ := hended.exists_reads_of_chosen hchosen
  have hmem := List.mem_singleton_self tree
  refine ⟨T, tree, hof, hchosen, fun p hp => htiered.nests hreads hmem hp,
    fun id op hop hfirst ha => ⟨Tiering.rhsOf_first hfirst ha, fun i j us k u hpart hu => ?_⟩⟩
  exact htiered.tier?_of_first hreads hmem hpart hop hfirst ha hu

/-- A power of powers nests to the right. -/
theorem associativity_nests_powers :
    ∃ g r, ∃ (T : Tiering) (tree : Tree),
      Grammar.ofStatements Definition.powers.statements "powers" = .ok g ∧
      recognize g none "a^a^a" = .ok r ∧ r.Chosen tree ∧ T.count = 2 ∧ T.Nests 1 tree := by
  have htest : (Grammar.ofStatements Definition.powers.statements "powers").toOption.any (fun g =>
      (recognize g none "a^a^a").toOption.any fun r => r.failure?.isNone) = true := by
    decide +kernel
  obtain ⟨g, hg, htest⟩ := exists_eq_ok_of_any htest
  obtain ⟨r, hr, htest⟩ := exists_eq_ok_of_any htest
  obtain ⟨T, tree, hof, hchosen, hnests, -⟩ := associativity_nests hg (List.nil_append _).symm
    (by decide) hr (Option.isNone_iff_eq_none.mp htest)
  exact ⟨g, r, T, tree, hg, hr, hchosen, hof.count, hnests 1 Nat.one_pos⟩

/-- Differences of letters, which are to nest to the left, and sums of them. -/
def differenceTiers : List (List Alternative) :=
  [[Alternative.ofItems ["difference", "'-'", "difference"], Alternative.ofItems ["'a'"]],
    [Alternative.ofItems ["difference", "'+'", "difference"]]]

def Definition.differences : Definition :=
  ⟨[.prioritized "difference" differenceTiers], "differences"⟩

/-- The alternative of differences has operands on both sides. Its rule is the first one behind
    the spliced ones. -/
theorem exists_difference {g : Grammar} {T : Tiering}
    (hT : T.Of Definition.differences.statements [] "difference" differenceTiers 0 g)
    (hname : g.findSymbol? "difference" = some 0) (hkind : g.kind? 0 = some .nonterminal) :
    ∃ op s, T.operator? (T.first + T.count) = some op ∧ op.tier = 0 ∧
      op.adverbs.associativity = .left ∧ op.rhs = [T.lhs, s, T.lhs] ∧ s ≠ T.lhs := by
  have hoperand : Element.decode (RhsItem.parse "difference").element =
      .ok (.name "difference") := by
    decide +kernel
  have hminus : Element.decode (RhsItem.parse "'-'").element =
      .ok (.terminal (.literal ['-'])) := by
    decide +kernel
  have hnone : RuleAdverbs.read false [] = .ok ⟨none, .left, 0, none, false, false⟩ := rfl
  have hlhs := hT.findSymbol?_eq hoperand
  have hzero : T.lhs = 0 := Option.some.inj (hlhs.symm.trans hname)
  have hstands {s : SymbolId} (hs : g.StandsFor (RhsItem.parse "difference").element s) :
      s = T.lhs :=
    Option.some.inj (((Grammar.standsFor_name_iff hoperand).mp hs).symm.trans hlhs)
  obtain ⟨op, hop, hwritten⟩ := hT.exists_operator (k := 0)
    (x := (0, Alternative.ofItems ["difference", "'-'", "difference"])) rfl
  obtain ⟨s₀, _, hs₀, htwo, hrhs⟩ := List.forall₂_cons_left_iff.mp hwritten.rhs
  obtain ⟨s₁, _, hs₁, hone, rfl⟩ := List.forall₂_cons_left_iff.mp htwo
  obtain ⟨s₂, _, hs₂, hnil, rfl⟩ := List.forall₂_cons_left_iff.mp hone
  obtain rfl := List.forall₂_nil_left_iff.mp hnil
  refine ⟨op, s₁, hop, hwritten.tier, ?_, ?_, ?_⟩
  · rw [Except.ok.inj (hwritten.adverbs.symm.trans hnone)]
  · rw [hrhs, hstands hs₀, hstands hs₂]
  · rintro rfl
    rw [Grammar.StandsFor, hminus, hzero] at hs₁
    rw [Grammar.kind?, hs₁.1] at hkind
    cases hkind

/-- A tree does not nest to the left if an alternative between two operands has itself on top of
    the last one. -/
theorem Tiering.not_nests_of_infix {T : Tiering} {id : RuleId} {op : Operator} {s : SymbolId}
    {i j k m : Nat} {tree u₀ u₁ : Tree} {vs : List Tree} (hop : T.operator? id = some op)
    (hassoc : op.adverbs.associativity = .left) (hrhs : op.rhs = [T.lhs, s, T.lhs])
    (hs : s ≠ T.lhs) (hpart : tree.HasPart (.node id i j [u₀, u₁, .node id k m vs])) :
    ¬T.Nests op.tier tree := by
  intro hnests
  have hoperands : T.operands op.rhs
      (Tree.contractAll T.spliced [u₀, u₁, .node id k m vs]) =
        [Tree.contract T.spliced u₀, .node id k m (Tree.contractAll T.spliced vs)] := by
    rw [hrhs, Tree.contractAll, Tree.contractAll, Tree.contractAll, Tree.contractAll,
      operands_cons_lhs, operands_cons_of_ne hs, operands_cons_lhs,
      Tree.contract_node (RuleTable.Tiered.spliced_of_operator? hop)]
    rfl
  refine hnests id i j _ op 1 (.node id k m (Tree.contractAll T.spliced vs)) hpart hop rfl ?_ ?_ ?_
  · rw [hoperands]
    rfl
  · rw [hassoc]
    exact Nat.one_ne_zero
  · rw [tier?, hop, Option.map_some]

/-- A difference of three letters is one of a letter and a difference, although the first tier
    nests to the left. -/
theorem associativity_fails_differences :
    ∃ g r tree, Grammar.ofStatements Definition.differences.statements "differences" = .ok g ∧
      recognize g none "a-a-a" = .ok r ∧ r.failure? = none ∧ r.Chosen tree ∧
      (∃ T : Tiering, T.Of Definition.differences.statements [] "difference" differenceTiers 0 g) ∧
      ∀ T : Tiering, T.Of Definition.differences.statements [] "difference" differenceTiers 0 g →
        (∃ i j us k m vs, tree.HasPart (.node (T.first + T.count) i j us) ∧
          us[2]? = some (.node (T.first + T.count) k m vs)) ∧
        ¬T.Nests 0 tree := by
  have htest : (Grammar.ofStatements Definition.differences.statements
      "differences").toOption.any (fun g =>
        decide (g.structural.rules.size = 5 ∧ g.findSymbol? "difference" = some 0 ∧
          g.kind? 0 = some .nonterminal) &&
        (recognize g none "a-a-a").toOption.any fun r => decide (r.failure? = none) &&
          (r.chosenTree? 20).any fun tree => (tree.part? [0, 0]).any fun x =>
            decide (x.rule? = some 2 ∧ x.children.length = 3 ∧
              x.children[2]?.bind Tree.rule? = some 2)) = true := by
    decide +kernel
  obtain ⟨g, hg, htest⟩ := exists_eq_ok_of_any htest
  obtain ⟨hgrammar, htest⟩ := Bool.and_eq_true_iff.mp htest
  obtain ⟨hsize, hname, hkind⟩ := of_decide_eq_true hgrammar
  obtain ⟨r, hr, htest⟩ := exists_eq_ok_of_any htest
  obtain ⟨hok, htest⟩ := Bool.and_eq_true_iff.mp htest
  obtain ⟨tree, htree, htest⟩ := (Option.any_eq_true _ _).mp htest
  obtain ⟨x, hx, htest⟩ := (Option.any_eq_true _ _).mp htest
  obtain ⟨hrule, hlength, hlast⟩ := of_decide_eq_true htest
  obtain ⟨i, j, us, rfl⟩ := Tree.exists_of_rule? hrule
  obtain ⟨u, hu, hlast⟩ := Option.bind_eq_some_iff.mp hlast
  obtain ⟨k, m, vs, rfl⟩ := Tree.exists_of_rule? hlast
  have hpart := Tree.hasPart_of_part? hx
  have hok : r.failure? = none := of_decide_eq_true hok
  have hchosen := Recognition.chosen_of_chosenTree? htree
  have hexists := Tiering.exists_of hg (List.nil_append _).symm (by decide)
  refine ⟨g, r, tree, hg, hr, hok, hchosen, hexists, fun T hT => ?_⟩
  obtain ⟨op, s, hop, htier, hassoc, hrhs, hs⟩ := exists_difference hT hname hkind
  have hnumber : T.first + T.count = 2 := by
    have hcount : T.count = 2 := hT.count
    have hlength : 3 = T.operators.length := hT.operators.length_eq
    have hle := hT.size_le (by rw [hcount]; exact Nat.two_pos)
    rw [hsize, hcount, ← hlength] at hle
    simp only [RuleId] at hle ⊢
    omega
  rw [hnumber] at hop ⊢
  refine ⟨⟨i, j, us, k, m, vs, hpart, hu⟩, ?_⟩
  obtain ⟨u₀, u₁, u₂, rfl⟩ := List.length_eq_three.mp hlength
  obtain rfl := Option.some.inj hu
  rw [← htier]
  exact Tiering.not_nests_of_infix hop hassoc hrhs hs hpart

end Scannerless
