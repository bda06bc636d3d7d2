import Scannerless.Proofs.Evaluation.Notes
import Scannerless.Proofs.Grammar.Operands
import Scannerless.Proofs.Recognition.ChosenTree

/-!
# Ranks in tiers

Where a name that is defined in tiers stands in a rule, one of its alternatives is evaluated.
Of alternatives of one tier over the same span it is the one with the highest rank, then the
one declared first. The alternatives of tighter tiers stand behind a spliced rule, which has
the rank zero and comes before the alternatives of its tier: an alternative of a looser tier is
evaluated instead of one of a tighter tier if its rank is positive, and only then.

## Main definitions

- `Operator.Ranks` — the order of alternatives by rank and declaration.
- `Operator.Outranks` — the order in which alternatives of tiers come.
- `Tiering.Picks` — the alternatives evaluated in a tree are the first ones in an order.

## Main statements

- `Footprint.Tiers.comesFirst_level` — the alternative below the symbol of a tier.
- `ranks_in_tiers` — the alternatives that are evaluated.
- `ranks_hidden_letters` — an alternative that is evaluated although its rank is the lower one.
-/

namespace Scannerless

/-- Of two alternatives with the numbers of their rules the first one has the higher rank, or
    the same rank and is declared first. -/
def Operator.Ranks (id : RuleId) (op : Operator) (id' : RuleId) (op' : Operator) : Prop :=
  op'.adverbs.rank < op.adverbs.rank ∨ op.adverbs.rank = op'.adverbs.rank ∧ id < id'

/-- Of two alternatives of one tier the first one ranks before the other. Of two alternatives of
    different tiers the looser one comes first if its rank is positive, else the tighter one. -/
def Operator.Outranks (id : RuleId) (op : Operator) (id' : RuleId) (op' : Operator) : Prop :=
  op.tier = op'.tier ∧ Operator.Ranks id op id' op' ∨
    op.tier < op'.tier ∧ op'.adverbs.rank ≤ 0 ∨ op'.tier < op.tier ∧ 0 < op.adverbs.rank

/-- A tree stands where a symbol is in a rule of another tree. -/
def Tree.HasAt (t : RuleTable) (tree : Tree) (s : SymbolId) (u : Tree) : Prop :=
  ∃ id i j us, ∃ n : Nat, tree.HasPart (.node id i j us) ∧ (t.rhs id)[n]? = some s ∧ us[n]? = some u

namespace Tiering

/-- An alternative may stand at a symbol: at the name, or at the symbol of its tier or of a
    looser one. -/
def Permits (T : Tiering) (s : SymbolId) (op : Operator) : Prop :=
  s = T.lhs ∨ ∃ p, s = T.level p ∧ op.tier ≤ p

/-- The leaf of a tree has an alternative on top that comes before all others that may stand at
    a symbol and have a reading over the span of the tree. -/
def ComesFirst (T : Tiering) (t : RuleTable) (l : Lattice)
    (before : RuleId → Operator → RuleId → Operator → Prop) (s : SymbolId) (u : Tree) : Prop :=
  ∃ id op k m vs, u.leaves t = [.node id k m vs] ∧ u.places = (k, m) ∧ T.operator? id = some op ∧
    T.Permits s op ∧ ∀ id' op', T.operator? id' = some op' → T.Permits s op' →
      t.Spans l (t.rhs id') k m → id' ≠ id → before id op id' op'

/-- Wherever the name or a tier stands in a rule of a tree, the alternative that comes first in
    an order is evaluated. -/
def Picks (T : Tiering) (t : RuleTable) (l : Lattice)
    (before : RuleId → Operator → RuleId → Operator → Prop) (tree : Tree) : Prop :=
  ∀ s u, tree.HasAt t s u → s = T.lhs ∨ T.IsLevel s → T.ComesFirst t l before s u

variable {T : Tiering} {op : Operator} {p : Nat}

theorem permits_level_iff (hp : p < T.count) (hlhs : ¬T.IsLevel T.lhs) :
    T.Permits (T.level p) op ↔ op.tier ≤ p := by
  constructor
  · rintro (heq | ⟨q, heq, hle⟩)
    · exact absurd (heq ▸ isLevel_level hp) hlhs
    · rwa [Nat.add_left_cancel heq]
  · exact fun hle => Or.inr ⟨p, rfl, hle⟩

end Tiering

namespace Footprint.Tiers

variable {f : Footprint} {ss before after : List Statement} {spelling : String}
  {tiers : List (List Alternative)} {g : Grammar} {o : Outline} {d : Draft} {T : Tiering}
  {id id' : RuleId} {op op' : Operator} {l : Lattice} {k m p : Nat} {u : Tree}
  {ws : List Tree}

theorem rank_splice (hT : f.Tiers tiers o d T)
    (hf : f.LeftBy before after spelling tiers g o d) (hp : p < T.count) :
    g.structural.rank (T.first + p) = 0 := by
  have hrank : (T.splice f.name p).rank = 0 := by
    rw [Tiering.splice]
    split <;> rfl
  rw [RuleTable.rank, hT.rule?_splice hf hp]
  exact hrank

theorem rank_operator (hT : f.Tiers tiers o d T)
    (hf : f.LeftBy before after spelling tiers g o d) (hop : T.operator? id = some op) :
    g.structural.rank id = op.adverbs.rank := by
  rw [RuleTable.rank, hT.rule?_operator hf hop]
  rfl

/-- The spliced rules stand in front of the alternatives. -/
theorem splice_lt (hp : p < T.count) (hop : T.operator? id = some op) : T.first + p < id := by
  obtain ⟨n, rfl, -⟩ := Tiering.operator?_eq_some hop
  exact Nat.add_lt_add_left (Nat.lt_of_lt_of_le hp (Nat.le_add_right _ _)) _

theorem mem_rulesFor_operator (ht : g.structural.Tiered T) (hop : T.operator? id = some op) :
    id ∈ g.structural.rulesFor (T.level op.tier) :=
  (ht.indexed _ _).mpr (ht.operator id op hop).2.1

theorem mem_rulesFor_splice (ht : g.structural.Tiered T) (hp : p + 1 < T.count) :
    T.first + (p + 1) ∈ g.structural.rulesFor (T.level (p + 1)) :=
  (ht.indexed _ _).mpr (ht.step _ (Nat.succ_pos p) hp).1

/-- If an alternative has a reading over a span, so have the spliced rules of looser tiers. -/
theorem spans_splice (ht : g.structural.Tiered T) (hp : p + 1 < T.count)
    (hop : T.operator? id = some op) (hle : op.tier ≤ p)
    (hspans : g.structural.Spans l (g.structural.rhs id) k m) :
    g.structural.Spans l (g.structural.rhs (T.first + (p + 1))) k m := by
  obtain ⟨vs, hvs⟩ := hspans
  obtain ⟨u, hu, -⟩ := ht.exists_reads_level hle (Nat.lt_of_succ_lt hp)
    (.of_rule (mem_rulesFor_operator ht hop) hvs)
  rw [(ht.step _ (Nat.succ_pos p) hp).2]
  exact ⟨[u], hu⟩

/-- The alternative whose rule is the first one of its tier over a span comes before the others
    of the tier, and before those of tighter tiers: the spliced rule that leads to these does
    not come first. -/
theorem outranks_of_foremost (hT : f.Tiers tiers o d T)
    (hf : f.LeftBy before after spelling tiers g o d) (ht : g.structural.Tiered T)
    (hop : T.operator? id = some op) (hfirst : g.structural.Foremost l (T.level op.tier) k m id)
    (hop' : T.operator? id' = some op') (hle : op'.tier ≤ op.tier)
    (hspans : g.structural.Spans l (g.structural.rhs id') k m) (hne : id' ≠ id) :
    Operator.Outranks id op id' op' := by
  rcases Nat.lt_or_eq_of_le hle with hlt | heq
  · obtain ⟨p, hp⟩ := Nat.exists_eq_add_of_lt hlt
    have htier : op.tier = op'.tier + p + 1 := hp
    have hcount : op'.tier + p + 1 < T.count := htier ▸ hT.tier_lt hop
    have hsplice := splice_lt hcount hop
    have hbefore := hfirst.before _ (htier ▸ mem_rulesFor_splice ht hcount)
      (spans_splice ht hcount hop' (Nat.le_add_right _ p) hspans) (Nat.ne_of_lt hsplice)
    rw [hT.rank_operator hf hop, hT.rank_splice hf hcount] at hbefore
    exact Or.inr (Or.inr ⟨hlt, hbefore.resolve_right fun h => Nat.lt_asymm h.2 hsplice⟩)
  · have hbefore := hfirst.before id' (heq ▸ mem_rulesFor_operator ht hop') hspans hne
    rw [hT.rank_operator hf hop, hT.rank_operator hf hop'] at hbefore
    exact Or.inl ⟨heq.symm, hbefore⟩

/-- If the spliced rule of a tier comes first, no alternative of the tier has a positive rank. -/
theorem rank_le_of_foremost_splice (hT : f.Tiers tiers o d T)
    (hf : f.LeftBy before after spelling tiers g o d) (ht : g.structural.Tiered T)
    (hp : p < T.count) (hfirst : g.structural.Foremost l (T.level p) k m (T.first + p))
    (hop : T.operator? id = some op) (htier : op.tier = p)
    (hspans : g.structural.Spans l (g.structural.rhs id) k m) : op.adverbs.rank ≤ 0 := by
  have hbefore := hfirst.before id (htier ▸ mem_rulesFor_operator ht hop) hspans
    (Nat.ne_of_gt (splice_lt hp hop))
  rw [hT.rank_operator hf hop, hT.rank_splice hf hp] at hbefore
  rcases hbefore with hlt | ⟨heq, -⟩
  · exact hlt.le
  · exact heq.symm.le

/-- The alternative whose rule is the first one at the symbol of its tier comes first. -/
theorem comesFirst_operator (hT : f.Tiers tiers o d T)
    (hf : f.LeftBy before after spelling tiers g o d) (ht : g.structural.Tiered T)
    (hop : T.operator? id = some op) (hfirst : g.structural.Foremost l (T.level op.tier) k m id)
    (ws : List Tree) :
    T.ComesFirst g.structural l Operator.Outranks (T.level op.tier) (.node id k m ws) := by
  refine ⟨id, op, k, m, ws, (Tree.IsLeaf.node k m ws (hT.isSplice_operator hf hop)).leaves_eq, rfl,
    hop, Or.inr ⟨op.tier, rfl, Nat.le_refl _⟩, fun id' op' hop' hpermits hspans hne => ?_⟩
  exact hT.outranks_of_foremost hf ht hop hfirst hop'
    ((Tiering.permits_level_iff (hT.tier_lt hop) ht.lhs).mp hpermits) hspans hne

/-- What comes first at the next tighter tier comes first at a tier, if this has the spliced rule
    on top. -/
theorem comesFirst_splice (hT : f.Tiers tiers o d T)
    (hf : f.LeftBy before after spelling tiers g o d) (ht : g.structural.Tiered T)
    (hp : p + 1 < T.count)
    (hfirst : g.structural.Foremost l (T.level (p + 1)) k m (T.first + (p + 1)))
    (hu : u.places = (k, m))
    (h : T.ComesFirst g.structural l Operator.Outranks (T.level p) u) :
    T.ComesFirst g.structural l Operator.Outranks (T.level (p + 1))
      (.node (T.first + (p + 1)) k m [u]) := by
  obtain ⟨id, op, k', m', vs, hleaf, hplaces, hop, hpermits, hall⟩ := h
  obtain ⟨rfl, rfl⟩ := Prod.mk.inj (hu.symm.trans hplaces)
  have hle := (Tiering.permits_level_iff (Nat.lt_of_succ_lt hp) ht.lhs).mp hpermits
  refine ⟨id, op, k, m, vs, (hT.leaves_splice hf hp u).trans hleaf, rfl, hop,
    Or.inr ⟨p + 1, rfl, Nat.le_succ_of_le hle⟩, fun id' op' hop' hpermits' hspans hne => ?_⟩
  have hle' := (Tiering.permits_level_iff hp ht.lhs).mp hpermits'
  rcases Nat.lt_or_eq_of_le hle' with hlt | heq
  · exact hall id' op' hop' (Or.inr ⟨p, rfl, Nat.le_of_lt_succ hlt⟩) hspans hne
  · have hrank := hT.rank_le_of_foremost_splice hf ht hp hfirst hop' heq hspans
    exact Or.inr (Or.inl ⟨heq ▸ Nat.lt_succ_of_le hle, hrank⟩)

/-- What the policy picks for the symbol of a tier comes first. -/
theorem comesFirst_level (hT : f.Tiers tiers o d T)
    (hf : f.LeftBy before after spelling tiers g o d) (ht : g.structural.Tiered T)
    (hp : p < T.count) (hfirst : g.structural.Foremost l (T.level p) k m id)
    (hws : g.structural.Prefers l (g.structural.rhs id) k m ws) :
    T.ComesFirst g.structural l Operator.Outranks (T.level p) (.node id k m ws) := by
  refine ht.level_induct (motive := fun p u => ∀ id ws, u = .node id k m ws →
    g.structural.Foremost l (T.level p) k m id →
    g.structural.Prefers l (g.structural.rhs id) k m ws →
    T.ComesFirst g.structural l Operator.Outranks (T.level p) u) ?_ ?_ hp
    (.of_rule hfirst.mem hws.reads) id ws rfl hfirst hws
  · rintro id op vs hop - _ _ heq hfirst -
    obtain ⟨rfl, -, -, rfl⟩ := Tree.node.inj heq
    exact hT.comesFirst_operator hf ht hop hfirst vs
  · rintro p v hp - ih _ _ heq hfirst hws
    obtain ⟨rfl, -, -, rfl⟩ := Tree.node.inj heq
    rw [(ht.step _ (Nat.succ_pos p) hp).2] at hws
    obtain ⟨id', ws', heq', hfirst', hws'⟩ :=
      hws.singleton_cases (ht.hasRules_level (Nat.lt_of_succ_lt hp))
    obtain rfl := List.singleton_inj.mp heq'
    exact hT.comesFirst_splice hf ht hp hfirst rfl (ih id' ws' rfl hfirst' hws')

/-- What the policy picks for the name comes first: the only rule of the name leads to the
    loosest tier, at which all alternatives may stand. -/
theorem comesFirst_name (hT : f.Tiers tiers o d T)
    (hf : f.LeftBy before after spelling tiers g o d) (ht : g.structural.Tiered T)
    (hfirst : g.structural.Foremost l T.lhs k m id)
    (hws : g.structural.Prefers l (g.structural.rhs id) k m ws) :
    T.ComesFirst g.structural l Operator.Outranks T.lhs (.node id k m ws) := by
  have hp : T.count - 1 < T.count := Nat.sub_lt ht.pos Nat.one_pos
  obtain rfl := (ht.name id).mp ((ht.indexed _ _).mp hfirst.mem)
  rw [ht.name_rhs] at hws
  obtain ⟨id', ws', rfl, hfirst', hws'⟩ := hws.singleton_cases (ht.hasRules_level hp)
  obtain ⟨id, op, k', m', vs, hleaf, hplaces, hop, -, hall⟩ :=
    hT.comesFirst_level hf ht hp hfirst' hws'
  obtain ⟨rfl, rfl⟩ := Prod.mk.inj hplaces
  refine ⟨id, op, k, m, vs, (hT.leaves_splice hf ht.pos _).trans hleaf, rfl, hop, Or.inl rfl,
    fun id' op' hop' _ hspans hne => hall id' op' hop' ?_ hspans hne⟩
  exact Or.inr ⟨_, rfl, Nat.le_sub_one_of_lt (hT.tier_lt hop')⟩

end Footprint.Tiers

/-- Parts of the tree that the policy picks are picked by it. -/
theorem Recognition.Preferred.prefers_of_hasPart {r : Recognition} {l : Lattice} {tree : Tree}
    (h : r.Preferred l tree) {id : RuleId} {i j : Nat} {us : List Tree}
    (hpart : tree.HasPart (.node id i j us)) :
    r.grammar.structural.Prefers l (r.grammar.structural.rhs id) i j us := by
  obtain ⟨id', stop, vs, -, -, hvs, rfl⟩ := h
  rcases hpart.node_cases with heq | ⟨child, hchild, hpart⟩
  · obtain ⟨rfl, rfl, rfl, rfl⟩ := Tree.node.inj heq
    exact hvs
  · exact hvs.of_hasPart hchild hpart

/-- Wherever a name that is defined in tiers stands in a rule of the tree that is evaluated, the
    alternative that is evaluated comes before all others that may stand there and have a
    reading over the same span. Of alternatives of one tier it has the highest rank and is
    declared first. An alternative of a looser tier is evaluated instead of one of a tighter
    tier if its rank is positive, and only then. -/
theorem ranks_in_tiers {ss before after : List Statement} {description spelling : String}
    {tiers : List (List Alternative)} {offset : Nat} {g : Grammar} {limit : Option Nat}
    {input : String} {r : Recognition} (h : Grammar.ofStatements ss description = .ok g)
    (hss : ss = before ++ .structural spelling tiers offset :: after)
    (htiers : 2 ≤ tiers.length) (hr : recognize g limit input = .ok r)
    (hok : r.failure? = none) :
    ∃ (T : Tiering) (tree : Tree), T.Of ss before spelling tiers offset g ∧ r.Chosen tree ∧
      T.Picks g.structural r.lattice Operator.Outranks tree := by
  obtain ⟨o, d, hlowered⟩ := Lowered.exists_of_ofStatements h
  obtain ⟨f, T, hf, hT, htiered, hof⟩ := hlowered.exists_tiering hss htiers
  obtain ⟨rfl, -, hended⟩ := hlowered.coherent.ended hr
  obtain ⟨tree, hchosen⟩ := hended.exists_chosen hok
  have hpreferred := hended.preferred_of_chosen hended.fits_lattice hchosen
  refine ⟨T, tree, hof, hchosen, ?_⟩
  rintro s u ⟨id, i, j, us, n, hpart, hs, hu⟩ hsymbol
  have hprefers := hpreferred.prefers_of_hasPart hpart
  rcases hsymbol with rfl | hlevel
  · obtain ⟨id', k, m, ws, rfl, hfirst, hws⟩ := hprefers.at_place hs hu htiered.hasRules_lhs
    exact hT.comesFirst_name hf htiered hfirst hws
  · obtain ⟨p, hp, rfl⟩ := Tiering.exists_level hlevel
    obtain ⟨id', k, m, ws, rfl, hfirst, hws⟩ :=
      hprefers.at_place hs hu (htiered.hasRules_level hp)
    exact hT.comesFirst_level hf htiered hp hfirst hws

/-- Two lexemes that match the same letter, the one of the tighter tier with the higher rank. -/
def letterTiers : List (List Alternative) :=
  [[(Alternative.ofItems ["first"]).withAdverb "rank" "5"],
    [(Alternative.ofItems ["second"]).withAdverb "rank" "3"]]

def Definition.rankedLetters : Definition :=
  ⟨[.rule "text" ["letter"], .prioritized "letter" letterTiers, .lexeme "first" ["'x'"],
    .lexeme "second" ["'x'"]], "letters"⟩

theorem rankedLetters_statements :
    Definition.rankedLetters.statements = [.rule "text" ["letter"]] ++
      .structural "letter" letterTiers 0 :: [.lexeme "first" ["'x'"], .lexeme "second" ["'x'"]] :=
  rfl

/-- Two letters over the same span, the one of the looser tier having a positive rank. -/
theorem ranks_in_tiers_letters :
    ∃ g r, ∃ (T : Tiering) (tree : Tree),
      Grammar.ofStatements Definition.rankedLetters.statements "letters" = .ok g ∧
      recognize g none "x" = .ok r ∧ r.Chosen tree ∧ T.count = 2 ∧
      T.Picks g.structural r.lattice Operator.Outranks tree := by
  have htest : (Grammar.ofStatements Definition.rankedLetters.statements
      "letters").toOption.any (fun g =>
        (recognize g none "x").toOption.any fun r => r.failure?.isNone) = true := by
    decide +kernel
  obtain ⟨g, hg, htest⟩ := exists_eq_ok_of_any htest
  obtain ⟨r, hr, htest⟩ := exists_eq_ok_of_any htest
  obtain ⟨T, tree, hof, hchosen, hpicks⟩ :=
    ranks_in_tiers hg rankedLetters_statements (by decide) hr (Option.isNone_iff_eq_none.mp htest)
  exact ⟨g, r, T, tree, hg, hr, hchosen, hof.count, hpicks⟩

/-- An operator has the rank that its alternative is written with. -/
theorem Operator.Of.rank_eq {standsFor : String → SymbolId → Prop} {x : Nat × Alternative}
    {op : Operator} {rank : Int} (h : Operator.Of standsFor x op)
    (hread : (RuleAdverbs.read false x.2.adverbs).toOption.map RuleAdverbs.rank = some rank) :
    op.adverbs.rank = rank := by
  rw [h.adverbs] at hread
  exact Option.some.inj hread

/-- The letters have the last two rules, with the ranks that are written. -/
theorem exists_rankedLetters {g : Grammar} {T : Tiering}
    (hT : T.Of Definition.rankedLetters.statements [.rule "text" ["letter"]] "letter" letterTiers
      0 g) (hsize : g.structural.rules.size = 5) (hsplice : g.structural.isSplice 0 = false) :
    ∃ op op', T.operator? 3 = some op ∧ T.operator? 4 = some op' ∧ op.adverbs.rank = 5 ∧
      op'.adverbs.rank = 3 := by
  have hcount : T.count = 2 := hT.count
  have hpos : 0 < T.count := by rw [hcount]; exact Nat.two_pos
  have hnumber : T.first + T.count = 3 := by
    have hlength : 2 = T.operators.length := hT.operators.length_eq
    have hle := hT.size_le hpos
    rw [hsize, hcount, ← hlength] at hle
    have hne : T.first ≠ 0 := by
      intro hzero
      have hfirst := hT.isSplice_first hpos
      rw [hzero, hsplice] at hfirst
      cases hfirst
    simp only [RuleId] at hle hne ⊢
    omega
  obtain ⟨op, hop, hwritten⟩ := hT.exists_operator (k := 0) rfl
  obtain ⟨op', hop', hwritten'⟩ := hT.exists_operator (k := 1) rfl
  rw [hnumber] at hop hop'
  exact ⟨op, op', hop, hop', hwritten.rank_eq (by decide +kernel),
    hwritten'.rank_eq (by decide +kernel)⟩

/-- The letter of the looser tier is evaluated, although the other one has the higher rank. -/
theorem ranks_hidden_letters :
    ∃ g r tree, Grammar.ofStatements Definition.rankedLetters.statements "letters" = .ok g ∧
      recognize g none "x" = .ok r ∧ r.failure? = none ∧ r.Chosen tree ∧
      (∃ T : Tiering, T.Of Definition.rankedLetters.statements [.rule "text" ["letter"]] "letter"
        letterTiers 0 g) ∧
      ∀ T : Tiering, T.Of Definition.rankedLetters.statements [.rule "text" ["letter"]] "letter"
        letterTiers 0 g → ¬T.Picks g.structural r.lattice Operator.Ranks tree := by
  have htest : (Grammar.ofStatements Definition.rankedLetters.statements
      "letters").toOption.any (fun g =>
        decide (g.structural.rules.size = 5 ∧ g.structural.isSplice 0 = false ∧
          (g.structural.rhs 0)[0]? = g.findSymbol? "letter" ∧
          (g.structural.rhs 3).take 1 = g.structural.rhs 3) &&
        (recognize g none "x").toOption.any fun r =>
          decide (r.failure? = none ∧ r.run.chart.item? ⟨1, 0⟩ = some ⟨3, 1, 0⟩) &&
          (r.chosenTree? 20).any fun tree => decide (tree.rule? = some 0) &&
            tree.children[0]?.any fun u => decide (u.places = (0, 1)) &&
              decide ((u.leaves g.structural).map Tree.rule? = [some 4])) = true := by
    decide +kernel
  obtain ⟨g, hg, htest⟩ := exists_eq_ok_of_any htest
  obtain ⟨hgrammar, htest⟩ := Bool.and_eq_true_iff.mp htest
  obtain ⟨hsize, hsplice, hname, hrhs⟩ := of_decide_eq_true hgrammar
  obtain ⟨r, hr, htest⟩ := exists_eq_ok_of_any htest
  obtain ⟨hrun, htest⟩ := Bool.and_eq_true_iff.mp htest
  obtain ⟨hok, hitem⟩ := of_decide_eq_true hrun
  obtain ⟨tree, htree, htest⟩ := (Option.any_eq_true _ _).mp htest
  obtain ⟨hroot, htest⟩ := Bool.and_eq_true_iff.mp htest
  obtain ⟨u, hu, htest⟩ := (Option.any_eq_true _ _).mp htest
  obtain ⟨hplaces, hleaves⟩ := Bool.and_eq_true_iff.mp htest
  obtain ⟨rfl, -, hended⟩ := (Grammar.coherent_of_ofStatements hg).ended hr
  refine ⟨r.grammar, r, tree, hg, hr, hok, Recognition.chosen_of_chosenTree? htree,
    Tiering.exists_of hg rankedLetters_statements (by decide), fun T hT hpicks => ?_⟩
  obtain ⟨op, op', hop, hop', hrank, hrank'⟩ := exists_rankedLetters hT hsize hsplice
  have hlhs : r.grammar.findSymbol? "letter" = some T.lhs :=
    hT.findSymbol?_eq (by decide +kernel)
  obtain ⟨i, j, us, rfl⟩ := Tree.exists_of_rule? (of_decide_eq_true hroot)
  obtain ⟨id, op₁, k, m, vs, hleaf, hspan, hop₁, -, hall⟩ :=
    hpicks T.lhs u ⟨0, i, j, us, 0, .refl, hname.trans hlhs, hu⟩ (Or.inl rfl)
  obtain ⟨rfl, rfl⟩ := Prod.mk.inj (hspan.symm.trans (of_decide_eq_true hplaces))
  have hid : id = 4 := by
    have hrules := of_decide_eq_true hleaves
    rw [hleaf] at hrules
    exact Option.some.inj (List.singleton_inj.mp hrules)
  subst hid
  obtain rfl := Option.some.inj (hop'.symm.trans hop₁)
  -- The other letter has a reading over the same span.
  have hspans := hended.spans hitem
  rw [hrhs] at hspans
  have hranks := hall 3 op hop (Or.inl rfl) hspans (by decide)
  rw [Operator.Ranks, hrank, hrank'] at hranks
  omega

end Scannerless
