import Scannerless.Proofs.Evaluation.Runs

/-!
# The policy of choices

The chosen tree of an input is told without the chart. Going through the right side of a
rule from its last symbol to its first, each symbol is read in the best way: by the rule
with the highest rank, then the one declared first, then the one with the longest span; and
as the longest token, then the one that was read from the first place. What is best is
asked of all ways to read the symbol behind which the rest of the rule has a reading.

## Main definitions

- `RuleTable.Pick` — a way to read the last of a list of symbols.
- `RuleTable.Possible`, `RuleTable.Best` — the ways there are, and the best of them.
- `RuleTable.Prefers` — the trees of a list of symbols that the policy picks.
- `Recognition.Preferred` — the tree of an input that the policy picks.

## Main statements

- `RuleTable.Prefers.unique` — the policy picks one reading.
- `Recognition.Ended.prefers_of_follows` — chosen sources follow the policy.
- `evaluate_preferred` — the tree that is evaluated is the one that the policy picks.
-/

namespace Scannerless

namespace RuleTable

variable {t : RuleTable} {l : Lattice} {ss : List SymbolId} {s : SymbolId} {i j : Nat}

def rank (t : RuleTable) (id : RuleId) : Int :=
  match t.rule? id with
  | some rule => rule.rank
  | none => 0

/-- A way to read the last of a list of symbols: as a token from a place, or by a rule from
    a place on. -/
inductive Pick where
  | token (place : Nat)
  | node (id : RuleId) (place : Nat)

/-- The ways to read the symbol behind others up to place `j`: the others span the places
    from `i` to where it is read from. -/
inductive Possible (t : RuleTable) (l : Lattice) (ss : List SymbolId) (s : SymbolId)
    (i j : Nat) : Pick → Prop where
  | token {k : Nat} (hss : t.Spans l ss i k) (hs : t.hasRules s = false)
      (hj : l.token k s j) : Possible t l ss s i j (.token k)
  | node {id : RuleId} {k : Nat} (hss : t.Spans l ss i k) (hid : id ∈ t.rulesFor s)
      (hrhs : t.Spans l (t.rhs id) k j) : Possible t l ss s i j (.node id k)

/-- Of two rules the one with the higher rank is better, then the one declared first, then
    the one that spans more. Of two tokens the longer one is better, then the one that was
    read from the first place. -/
def Better (t : RuleTable) (l : Lattice) : Pick → Pick → Prop
  | .node id k, .node id' k' =>
    t.rank id' < t.rank id ∨ t.rank id = t.rank id' ∧ (id < id' ∨ id = id' ∧ k < k')
  | .token k, .token k' => l.start k < l.start k' ∨ l.start k = l.start k' ∧ k < k'
  | _, _ => False

/-- The best way to read a symbol behind others. -/
structure Best (t : RuleTable) (l : Lattice) (ss : List SymbolId) (s : SymbolId) (i j : Nat)
    (pick : Pick) : Prop where
  possible : t.Possible l ss s i j pick
  better : ∀ other, t.Possible l ss s i j other → other ≠ pick → t.Better l pick other

theorem Better.asymm {pick other : Pick} (h : t.Better l pick other) :
    ¬t.Better l other pick := by
  cases pick with
  | token k =>
    cases other with
    | token k' =>
      simp only [Better] at h ⊢
      omega
    | node id' k' => exact h.elim
  | node id k =>
    cases other with
    | token k' => exact h.elim
    | node id' k' =>
      simp only [Better, RuleId] at h ⊢
      omega

theorem Best.unique {pick other : Pick} (h : t.Best l ss s i j pick)
    (h' : t.Best l ss s i j other) : pick = other := by
  by_contra hne
  exact (h.better other h'.possible (Ne.symm hne)).asymm (h'.better pick h.possible hne)

/-- The trees of a list of symbols that the policy picks, from the last symbol to the
    first. -/
inductive Prefers (t : RuleTable) (l : Lattice) :
    List SymbolId → Nat → Nat → List Tree → Prop where
  | nil (i : Nat) : Prefers t l [] i i []
  | token {ss : List SymbolId} {i k j : Nat} {ts : List Tree} {s : SymbolId}
      (hbest : t.Best l ss s i j (.token k)) (hss : Prefers t l ss i k ts) :
      Prefers t l (ss ++ [s]) i j (ts ++ [.token s k (l.start k) j])
  | node {ss : List SymbolId} {i k j : Nat} {ts us : List Tree} {s : SymbolId} {id : RuleId}
      (hbest : t.Best l ss s i j (.node id k)) (hss : Prefers t l ss i k ts)
      (hus : Prefers t l (t.rhs id) k j us) :
      Prefers t l (ss ++ [s]) i j (ts ++ [.node id k j us])

/-- What the policy picks is a reading. -/
theorem Prefers.reads {ts : List Tree} (h : t.Prefers l ss i j ts) : t.Reads l ss i j ts := by
  induction h with
  | nil i => exact .nil i
  | token hbest _ ih =>
    cases hbest.possible with
    | token _ hs hj => exact .token ih hs hj
  | node hbest _ _ ihss ihus =>
    cases hbest.possible with
    | node _ hid _ => exact .node ihss hid ihus

theorem Prefers.nil_inv {ts : List Tree} (h : t.Prefers l [] i j ts) : ts = [] := by
  generalize hall : ([] : List SymbolId) = all at h
  cases h with
  | nil => rfl
  | token => simp at hall
  | node => simp at hall

theorem Prefers.concat_cases {us : List Tree} (h : t.Prefers l (ss ++ [s]) i j us) :
    ∃ k ts, t.Prefers l ss i k ts ∧
      ((t.Best l ss s i j (.token k) ∧ us = ts ++ [.token s k (l.start k) j]) ∨
        ∃ id vs, t.Best l ss s i j (.node id k) ∧ t.Prefers l (t.rhs id) k j vs ∧
          us = ts ++ [.node id k j vs]) := by
  generalize hall : ss ++ [s] = all at h
  cases h with
  | nil => simp at hall
  | token hbest hss =>
    obtain ⟨rfl, hlast⟩ := List.append_inj' hall rfl
    obtain rfl := List.singleton_inj.mp hlast
    exact ⟨_, _, hss, Or.inl ⟨hbest, rfl⟩⟩
  | node hbest hss hus =>
    obtain ⟨rfl, hlast⟩ := List.append_inj' hall rfl
    obtain rfl := List.singleton_inj.mp hlast
    exact ⟨_, _, hss, Or.inr ⟨_, _, hbest, hus, rfl⟩⟩

/-- The policy picks one reading of a list of symbols. -/
theorem Prefers.unique {ts us : List Tree} (h : t.Prefers l ss i j ts)
    (h' : t.Prefers l ss i j us) : ts = us := by
  induction h generalizing us with
  | nil => exact h'.nil_inv.symm
  | token hbest _ ih =>
    obtain ⟨k, vs, hvs, ⟨hbest', rfl⟩ | ⟨id, ws, hbest', -, -⟩⟩ := h'.concat_cases
    · cases hbest.unique hbest'
      rw [ih hvs]
    · cases hbest.unique hbest'
  | node hbest _ _ ihss ihus =>
    obtain ⟨k, vs, hvs, ⟨hbest', -⟩ | ⟨id, ws, hbest', hws, rfl⟩⟩ := h'.concat_cases
    · cases hbest.unique hbest'
    · cases hbest.unique hbest'
      rw [ihss hvs, ihus hws]

end RuleTable

namespace Recognition

variable {r : Recognition} {l : Lattice} {ref : ItemRef} {it w : Item} {src : Source}
  {ts : List Tree}

/-! ### Chosen sources -/

theorem rank_eq (hit : r.run.chart.item? ref = some it) :
    r.rank ref = r.grammar.structural.rank it.rule := by
  rw [rank, rule?_eq hit]
  rfl

/-- A chosen source comes before all others, or in front of them if they are alike. -/
theorem before_of_chosen? (hit : r.run.chart.item? ref = some it)
    (hchosen : r.chosen? ref = some src) {other : Source}
    (hother : other ∈ r.run.chart.sources ref) (hne : other ≠ src) :
    (r.sourcePreference src).before (r.sourcePreference other) = true ∨
      ¬(r.sourcePreference other).before (r.sourcePreference src) = true ∧
        List.Sublist [src, other] (r.run.chart.sources ref) := by
  rw [chosen?_eq hit] at hchosen
  obtain ⟨front, back, hsources, hfront, hback⟩ := mostPreferred_eq_some hchosen
  rw [hsources] at hother ⊢
  rcases List.mem_append.mp hother with hother | hother
  · exact Or.inl (hfront other hother)
  · rcases List.mem_cons.mp hother with rfl | hother
    · exact absurd rfl hne
    · refine Or.inr ⟨hback other hother, ?_⟩
      have hsub : List.Sublist [src, other] (src :: back) :=
        (List.singleton_sublist.mpr hother).cons_cons src
      exact hsub.trans (List.sublist_append_right front _)

/-- A rule that was chosen is the best way to read its symbol. -/
theorem Ended.best_node (hr : r.Ended) (hl : r.grammar.Fits r.input l)
    {source trigger : ItemRef} (hit : r.run.chart.item? ref = some w.advanced)
    (hchosen : r.chosen? ref = some (.completed source trigger)) :
    ∃ s child, r.run.chart.item? source = some w ∧ r.grammar.structural.next? w = some s ∧
      r.run.chart.item? trigger = some child ∧ child.origin = source.set ∧
      r.grammar.structural.next? child = none ∧ trigger.set = ref.set ∧
      r.grammar.structural.Best l ((r.grammar.structural.rhs w.rule).take w.dot) s w.origin
        ref.set (.node child.rule source.set) := by
  have hi := hr.coherent.structural
  have hf := hr.finished_of_fits hl
  obtain ⟨refs, hcalls⟩ := hf.arises.calls_of_mem_sources hit (mem_of_chosen? hit hchosen)
  obtain ⟨-, hset, w', child, s, hw, hchild, hs, hlhs, hnext, horigin, hadvanced⟩ :=
    hcalls.of_completed
  obtain rfl := advanced_inj hadvanced
  have hchildspans := hf.arises.spans hi hchild
  rw [RuleTable.take_of_next?_eq_none hnext, horigin, hset] at hchildspans
  refine ⟨s, child, hw, hs, hchild, horigin, hnext, hset,
    .node (hf.arises.spans hi hw) ((hi _ _).mpr hlhs) hchildspans, fun other hother hne => ?_⟩
  cases hother with
  | token _ hrules =>
    rw [hi.hasRules_of_lhs hlhs] at hrules
    cases hrules
  | @node id k hss hid hrhs =>
    -- Every other way to read the symbol is a source too, and was not chosen.
    obtain ⟨source', trigger', hmem, rfl, htrigger'⟩ :=
      hf.exists_completed hi hl.forward hit hs hss hid hrhs
    have hpick : child.rule ≠ id ∨ source.set ≠ source'.set := by
      by_contra h
      simp only [not_or, not_not] at h
      rw [h.1, h.2] at hne
      exact hne rfl
    have hsrc : Source.completed source' trigger' ≠ .completed source trigger := by
      rintro h
      cases h
      obtain rfl := Option.some_inj.mp (hchild.symm.trans htrigger')
      simp at hpick
    have hbefore := (before_of_chosen? hit hchosen hmem hsrc).imp_right And.left
    simp only [sourcePreference, Preference.before_iff, rank_eq hchild, rank_eq htrigger',
      ruleId_eq hchild, ruleId_eq htrigger'] at hbefore
    simp only [RuleTable.Better, RuleId] at hpick ⊢
    omega

/-- Sources that moved over tokens lie in the order of their sets. -/
theorem Ended.set_le_of_sublist (hr : r.Ended) {source other : ItemRef} {start start' : Nat}
    (h : List.Sublist [.scanned source start, .scanned other start'] (r.run.chart.sources ref)) :
    source.set ≤ other.set := by
  have hsorted : ((r.run.chart.sources ref).filterMap Source.scannedFrom?).Pairwise (· ≤ ·) := by
    rw [hr.chart_eq]
    exact hr.coherent.pairwise_sources _ ref
  have hpair := hsorted.sublist (h.filterMap _)
  simpa [Source.scannedFrom?] using hpair

/-- A token that was chosen is the best way to read its symbol. Of tokens that begin at the
    same place the one from the first set was read first. -/
theorem Ended.best_token (hr : r.Ended) (hl : r.grammar.Fits r.input l) {source : ItemRef}
    {start : Nat} (hit : r.run.chart.item? ref = some w.advanced)
    (hchosen : r.chosen? ref = some (.scanned source start)) :
    start = l.start source.set ∧ ∃ s, r.run.chart.item? source = some w ∧
      r.grammar.structural.next? w = some s ∧
      r.grammar.structural.Best l ((r.grammar.structural.rhs w.rule).take w.dot) s w.origin
        ref.set (.token source.set) := by
  have hi := hr.coherent.structural
  have hf := hr.finished_of_fits hl
  obtain ⟨refs, hcalls⟩ := hf.arises.calls_of_mem_sources hit (mem_of_chosen? hit hchosen)
  obtain ⟨-, hstart, w', s, hw, hs, hterm, htoken, hadvanced⟩ := hcalls.of_scanned
  obtain rfl := advanced_inj hadvanced
  refine ⟨hstart, s, hw, hs, .token (hf.arises.spans hi hw) hterm htoken,
    fun other hother hne => ?_⟩
  cases hother with
  | node _ hid =>
    rw [RuleTable.hasRules_of_mem hid] at hterm
    cases hterm
  | @token k hss _ hj =>
    obtain ⟨source', hmem, rfl⟩ := hf.exists_scanned hi hl.forward hit hs hss hterm hj
    have hplace : source'.set ≠ source.set := fun h => hne (by rw [h])
    have hsrc : Source.scanned source' (l.start source'.set) ≠ .scanned source start := by
      rintro h
      cases h
      exact hplace rfl
    have hbefore := before_of_chosen? hit hchosen hmem hsrc
    simp only [sourcePreference, Preference.before_iff, hstart, lt_self_iff_false, true_and,
      false_or] at hbefore
    simp only [RuleTable.Better]
    rcases hbefore with hbefore | ⟨hbefore, hsub⟩
    · omega
    · -- Both begin at the same place: the sources are in the order of their sets.
      have hle := hr.set_le_of_sublist hsub
      omega

/-- What is read through chosen sources is what the policy picks. -/
theorem Ended.prefers_of_follows (hr : r.Ended) (hl : r.grammar.Fits r.input l)
    (h : r.Follows ref ts) (hit : r.run.chart.item? ref = some it) :
    r.grammar.structural.Prefers l ((r.grammar.structural.rhs it.rule).take it.dot) it.origin
      ref.set ts := by
  induction h generalizing it with
  | predicted hit' hdot =>
    obtain rfl := Option.some_inj.mp (hit'.symm.trans hit)
    rw [hdot, List.take_zero, (hr.admits hit).origin_eq hdot]
    exact .nil _
  | completed hit' hchosen hchild _ _ ihts ihus =>
    obtain rfl := Option.some_inj.mp (hit'.symm.trans hit)
    obtain ⟨w, rfl⟩ := hr.exists_eq_advanced hit hchosen
    obtain ⟨s, child, hw, hs, hchild', horigin, hnext, hset, hbest⟩ :=
      hr.best_node hl hit hchosen
    obtain rfl := Option.some_inj.mp (hchild.symm.trans hchild')
    have hus := ihus hchild
    rw [RuleTable.take_of_next?_eq_none hnext, horigin, hset] at hus
    rw [RuleTable.take_advanced hs, horigin, hset]
    exact .node hbest (ihts hw) hus
  | scanned hit' hchosen hw hs _ ihts =>
    obtain rfl := Option.some_inj.mp (hit'.symm.trans hit)
    obtain ⟨w, rfl⟩ := hr.exists_eq_advanced hit hchosen
    obtain ⟨rfl, s, hw', hs', hbest⟩ := hr.best_token hl hit hchosen
    obtain rfl := Option.some_inj.mp (hw.symm.trans hw')
    obtain rfl := Option.some_inj.mp (hs.symm.trans hs')
    rw [RuleTable.take_advanced hs]
    exact .token hbest (ihts hw)

/-! ### The chosen root -/

/-- A rule of the start symbol has a reading up to a place behind which everything is
    skipped. -/
structure Covers (r : Recognition) (l : Lattice) (id : RuleId) (stop : Nat) : Prop where
  start : r.grammar.structural.lhs? id = some r.grammar.start
  skip : r.input.size ≤ r.skip stop
  spans : r.grammar.structural.Spans l (r.grammar.structural.rhs id) 0 stop

/-- Of two rules of the start symbol the one with the higher rank is better, then the one
    declared first, then the one that spans more. -/
def BetterRoot (r : Recognition) (id : RuleId) (stop : Nat) (id' : RuleId) (stop' : Nat) : Prop :=
  r.grammar.structural.rank id' < r.grammar.structural.rank id ∨
    r.grammar.structural.rank id = r.grammar.structural.rank id' ∧
      (id < id' ∨ id = id' ∧ stop' < stop)

/-- The tree of an input that the policy picks: of the best rule of the start symbol, with the
    trees of its symbols that the policy picks. -/
def Preferred (r : Recognition) (l : Lattice) (tree : Tree) : Prop :=
  ∃ id stop us, r.Covers l id stop ∧
    (∀ id' stop', r.Covers l id' stop' → (id', stop') ≠ (id, stop) →
      r.BetterRoot id stop id' stop') ∧
    r.grammar.structural.Prefers l (r.grammar.structural.rhs id) 0 stop us ∧
    tree = .node id 0 stop us

theorem Preferred.unique {tree other : Tree} (h : r.Preferred l tree)
    (h' : r.Preferred l other) : tree = other := by
  obtain ⟨id, stop, us, hcovers, hbetter, hus, rfl⟩ := h
  obtain ⟨id', stop', us', hcovers', hbetter', hus', rfl⟩ := h'
  have hsame : id = id' ∧ stop = stop' := by
    by_contra hne
    have hpair : (id', stop') ≠ (id, stop) := fun h => hne (by simpa [eq_comm] using h)
    have hfirst := hbetter id' stop' hcovers' hpair
    have hsecond := hbetter' id stop hcovers (Ne.symm hpair)
    simp only [BetterRoot, RuleId] at hfirst hsecond
    -- Of two different pairs only one can be better.
    omega
  obtain ⟨rfl, rfl⟩ := hsame
  rw [hus.unique hus']

/-- The chosen tree is the one that the policy picks. -/
theorem Ended.preferred_of_chosen (hr : r.Ended) (hl : r.grammar.Fits r.input l) {tree : Tree}
    (h : r.Chosen tree) : r.Preferred l tree := by
  obtain ⟨root, it, us, hroot, hit, hus, rfl⟩ := h
  obtain ⟨hend, id, hid, hit'⟩ := hr.mem_roots_iff.mp (mem_of_mostPreferred hroot)
  obtain rfl := Option.some_inj.mp (hit.symm.trans hit')
  have hprefers := hr.prefers_of_follows hl hus hit
  rw [List.take_length] at hprefers
  refine ⟨id, root.set, us, ⟨hid, hend, us, hprefers.reads⟩, fun id' stop' h' hne => ?_,
    hprefers, rfl⟩
  -- A rule that covers the input has a root, which was among those to choose from.
  obtain ⟨other, hother, rfl, hitem⟩ := hr.exists_root_of_spans hl h'.start h'.skip h'.spans
  obtain ⟨front, back, hroots, hfront, hback⟩ := mostPreferred_eq_some hroot
  have hbefore : (r.rootPreference root).before (r.rootPreference other) = true ∨
      ¬(r.rootPreference other).before (r.rootPreference root) = true := by
    rw [hroots] at hother
    rcases List.mem_append.mp hother with hother | hother
    · exact Or.inl (hfront other hother)
    · rcases List.mem_cons.mp hother with rfl | hother
      · obtain ⟨rfl, -⟩ : id' = id ∧ _ := by simpa using hitem.symm.trans hit
        exact absurd rfl hne
      · exact Or.inr (hback other hother)
  simp only [rootPreference, Preference.before_iff, rank_eq hit, rank_eq hitem, ruleId_eq hit,
    ruleId_eq hitem] at hbefore
  simp only [BetterRoot, RuleId, ne_eq, Prod.mk.injEq] at hne ⊢
  omega

end Recognition

/-- The tree that is evaluated is the one that the policy picks among all readings, and the
    only one that follows the policy. -/
theorem evaluate_preferred {g : Grammar} {limit : Option Nat} {input : String}
    {r : Recognition} (hg : g.IsCompiled) (hr : recognize g limit input = .ok r)
    (hok : r.failure? = none) :
    ∃ tree, r.Chosen tree ∧
      (∀ l, r.IsLattice l → r.Preferred l tree ∧ ∀ other, r.Preferred l other → other = tree) ∧
      ∀ (V : Type) [Semantic V] (actions : Registry V),
        r.evaluate actions = (tree.evaluate r actions).runFrom #[] := by
  have hended := ended_of_recognize hg hr
  obtain ⟨tree, hchosen⟩ := hended.exists_chosen hok
  refine ⟨tree, hchosen, fun l hl => ?_, fun V _ actions => hended.evaluate_eq actions hchosen⟩
  have hpreferred := hended.preferred_of_chosen (hended.fits hl) hchosen
  exact ⟨hpreferred, fun other h => h.unique hpreferred⟩

/-- A sum of three letters, which has two readings, is evaluated as the policy says. -/
theorem evaluate_preferred_sums :
    ∃ g r tree, Definition.sums.compile = .ok g ∧ recognize g none "a+a+a" = .ok r ∧
      r.Preferred r.lattice tree ∧
      r.evaluate (.empty : Registry Value) = (tree.evaluate r .empty).runFrom #[] := by
  obtain ⟨g, r, hg, hr, hok⟩ := exists_recognize_sums
  obtain ⟨tree, -, hpreferred, heval⟩ := evaluate_preferred (Or.inl ⟨_, hg⟩) hr hok
  exact ⟨g, r, tree, hg, hr, (hpreferred r.lattice (Or.inl rfl)).1, heval Value .empty⟩

end Scannerless
