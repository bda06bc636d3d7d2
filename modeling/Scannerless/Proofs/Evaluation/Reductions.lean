import Scannerless.Proofs.Evaluation.Leaves
import Scannerless.Proofs.Evaluation.Runs

/-!
# What rules are applied to

On its way the machine is amid the leaves of some rules, each of which is a leaf of the one
before it. For each of them the values of the leaves that were worked off lie on the stack.
So the values that a rule takes off are those of its leaves, and no rule but that of the root
takes off the values of a spliced rule.

## Main definitions

- `Recognition.AppliesIn` — the rule of an item is part of a tree, and no rule above drops it.
- `Machine.Amid` — the leaves that the machine is amid.

## Main statements

- `Machine.Amid.of_passes` — the machine is amid leaves on all of its way.
- `Machine.Amid.reduces` — what a rule takes off is the values of its leaves.
-/

namespace Scannerless

open Text

namespace Recognition

variable {r : Recognition} {tree : Tree} {ref : ItemRef} {it : Item} {rule : Rule}
  {us : List Tree}

/-- The rule of an item has the trees `us`, and with them is part of a tree. No rule above it
    drops it. -/
structure AppliesIn (r : Recognition) (tree : Tree) (ref : ItemRef) (it : Item) (rule : Rule)
    (us : List Tree) : Prop where
  item : r.run.chart.item? ref = some it
  rule : r.grammar.structural.rule? it.rule = some rule
  complete : r.grammar.structural.next? it = none
  follows : r.Follows ref us
  kept : tree.KeptIn r.grammar.structural (.node it.rule it.origin ref.set us)

/-- The leaves of a rule in a tree. -/
abbrev ruleLeaves (r : Recognition) (rule : Rule) (us : List Tree) : List Tree :=
  Tree.leavesFrom r.grammar.structural rule 0 us

theorem Ended.exists_appliesIn (hr : r.Ended) {x : Tree} (h : r.Stands (.node ref) x)
    (hkept : tree.KeptIn r.grammar.structural x) :
    ∃ it rule us, x = .node it.rule it.origin ref.set us ∧ r.AppliesIn tree ref it rule us := by
  cases h with
  | @node _ it us hit hcomplete hus =>
    obtain ⟨s, hs⟩ := (hr.admits hit).lhs
    obtain ⟨rule, hrule, -⟩ := Option.map_eq_some_iff.mp hs
    exact ⟨it, rule, us, rfl, hit, hrule, hcomplete, hus, hkept⟩

/-- The rule of the chosen root applies in the chosen tree. -/
theorem Ended.exists_appliesIn_root (hr : r.Ended) (h : r.Chosen tree) :
    ∃ root it rule us, r.chooseRoot = some root ∧ tree = .node it.rule it.origin root.set us ∧
      r.AppliesIn tree root it rule us := by
  obtain ⟨root, it, us, hroot, hit, hus, rfl⟩ := h
  obtain ⟨hend, rule, hrule, -⟩ := hr.chooseRoot_cases hroot hit
  have hcomplete : r.grammar.structural.next? it = none := by
    rw [hend]
    exact RuleTable.next?_eq_none_iff.mpr (Nat.le_refl _)
  exact ⟨root, it, rule, us, hroot, rfl, hit, hrule, hcomplete, hus, .refl⟩

theorem AppliesIn.unique {it' : Item} {rule' : Rule} {us' : List Tree}
    (h : r.AppliesIn tree ref it rule us) (hr : r.Ended)
    (h' : r.AppliesIn tree ref it' rule' us') : it = it' ∧ rule = rule' ∧ us = us' := by
  obtain rfl := Option.some_inj.mp (h.item.symm.trans h'.item)
  exact ⟨rfl, Option.some_inj.mp (h.rule.symm.trans h'.rule), h.follows.unique hr h'.follows⟩

/-- An item stands for one tree. -/
theorem AppliesIn.eq_of_stands (h : r.AppliesIn tree ref it rule us) (hr : r.Ended) {x : Tree}
    (hx : r.Stands (.node ref) x) : x = .node it.rule it.origin ref.set us := by
  cases hx with
  | node hit _ hus =>
    obtain rfl := Option.some_inj.mp (h.item.symm.trans hit)
    rw [h.follows.unique hr hus]

/-- A leaf of a rule is kept where the rule is. -/
theorem AppliesIn.kept_leaf (h : r.AppliesIn tree ref it rule us) {leaf : Tree}
    (hleaf : leaf ∈ r.ruleLeaves rule us) :
    leaf.IsLeaf r.grammar.structural ∧ tree.KeptIn r.grammar.structural leaf := by
  obtain ⟨k, child, hchild, hkeeps, hmem⟩ := Tree.exists_of_mem_leavesFrom hleaf
  rw [Nat.zero_add] at hkeeps
  obtain ⟨hisLeaf, hkept⟩ := Tree.isLeaf_of_mem_leaves hmem
  exact ⟨hisLeaf, h.kept.trans (.head (.child h.rule hkeeps hchild) hkept)⟩

end Recognition

namespace Machine

variable {V : Type} [Semantic V] {r : Recognition} {actions : Registry V} {root ref : ItemRef}
  {tree : Tree} {m m' : Machine V} {it : Item} {rule : Rule} {us : List Tree}
  {rest : List Task} {count : Nat}

/-- The machine is at its start, or amid the leaves of a rule, or has no task left. The rule
    was visited by a machine that was itself amid leaves. The leaves in front have been worked
    off since, and their values lie on top of the values that there were then. -/
inductive Amid (r : Recognition) (actions : Registry V) (root : ItemRef) (tree : Tree) :
    Machine V → Prop where
  | start : Amid r actions root tree (initial root)
  | leaves {m outer : Machine V} {ref : ItemRef} {it : Item} {rule : Rule}
      {us front back : List Tree} {todo : List Child} {rest : List Task} {vs : List V}
      (houter : Amid r actions root tree outer) (hvisit : outer.tasks = .visit ref :: rest)
      (happlies : r.AppliesIn tree ref it rule us)
      (hsplit : r.ruleLeaves rule us = front ++ back) (htodo : List.Forall₂ r.Stands todo back)
      (hfront : (front.mapM (Tree.evaluate r actions)).runFrom outer.events = (.ok vs, m.events))
      (htasks : m.tasks = todo.map Child.task ++ .reduce ref (front ++ back).length :: rest)
      (hvalues : m.values = vs.reverse ++ outer.values) : Amid r actions root tree m
  | stop {m : Machine V} (htasks : m.tasks = []) : Amid r actions root tree m

/-! ### One step -/

/-- The child that the machine is to work off is the root, or stands for the next leaf of the rule
    that it is amid. With the value of that leaf on top of the stack it is still amid the rule. -/
theorem Amid.child_cases (hm : Amid r actions root tree m) (child : Child)
    (htasks : m.tasks = child.task :: rest) :
    (child = .node root ∧ rest = []) ∨
      ∃ leaf, r.Stands child leaf ∧ leaf.IsLeaf r.grammar.structural ∧
        tree.KeptIn r.grammar.structural leaf ∧
        ∀ v events, (leaf.evaluate r actions).runFrom m.events = (.ok v, events) →
          Amid r actions root tree ⟨rest, v :: m.values, events⟩ := by
  cases hm with
  | start =>
    obtain ⟨htask, rfl⟩ := List.cons.inj htasks
    have htask : (Child.node root).task = child.task := htask
    exact Or.inl ⟨(task_inj htask).symm, rfl⟩
  | @leaves _ _ _ _ _ _ front _ _ _ vs houter hvisit happlies hsplit htodo hfront htasks' hvalues =>
    rw [htasks'] at htasks
    cases htodo with
    | nil =>
      obtain ⟨htask, -⟩ := List.cons.inj htasks
      cases child <;> cases htask
    | @cons child' leaf todo back hstands htodo =>
      obtain ⟨htask, rfl⟩ := List.cons.inj htasks
      obtain rfl : child' = child := task_inj htask
      have hmem : leaf ∈ front ++ leaf :: back := List.mem_append_right _ List.mem_cons_self
      obtain ⟨hleaf, hkept⟩ := happlies.kept_leaf (hsplit ▸ hmem)
      have hmove : front ++ leaf :: back = (front ++ [leaf]) ++ back := by
        rw [List.append_assoc, List.singleton_append]
      refine Or.inr ⟨leaf, hstands, hleaf, hkept, fun v events hrun => ?_⟩
      refine .leaves houter hvisit happlies (hsplit.trans hmove) htodo
        (Evaluation.runFrom_mapM_concat hfront hrun) ?_ ?_
      · rw [hmove]
        rfl
      · simp [hvalues]
  | stop htasks' =>
    rw [htasks'] at htasks
    cases htasks

/-- What the machine is to visit is a rule of the tree. It is that of the root, or a leaf. -/
theorem Amid.exists_appliesIn (hm : Amid r actions root tree m) (hr : r.Ended)
    (hroot : r.AppliesIn tree root it rule us) (htasks : m.tasks = .visit ref :: rest) :
    ∃ it rule us, r.AppliesIn tree ref it rule us ∧ (ref = root ∨ rule.isSplice = false) := by
  rcases hm.child_cases (.node ref) htasks with ⟨hchild, -⟩ | ⟨leaf, hstands, hleaf, hkept, -⟩
  · obtain rfl := Child.node.inj hchild
    exact ⟨it, rule, us, hroot, Or.inl rfl⟩
  · obtain ⟨it, rule, us, rfl, happlies⟩ := hr.exists_appliesIn hstands hkept
    cases hleaf with
    | node _ _ _ hsplice =>
      rw [RuleTable.isSplice_eq happlies.rule] at hsplice
      exact ⟨it, rule, us, happlies, Or.inr hsplice⟩

/-- To visit a rule is to be amid its leaves, none of which has been worked off. -/
theorem Amid.step_visit (hm : Amid r actions root tree m) (hr : r.Ended)
    (happlies : r.AppliesIn tree ref it rule us) (htasks : m.tasks = .visit ref :: rest)
    (h : step r actions m = .inl m') : Amid r actions root tree m' := by
  obtain ⟨tasks, values, events⟩ := m
  obtain rfl : tasks = _ := htasks
  rw [Machine.step_visit actions rfl] at h
  obtain rfl := Sum.inl.inj h
  have hleaves := hr.forall₂_leaves happlies.item happlies.follows happlies.rule
  refine .leaves hm rfl happlies (List.nil_append _).symm hleaves rfl ?_ (List.nil_append _).symm
  rw [List.nil_append, hleaves.length_eq]

/-- Behind one more leaf that was worked off lies its value. -/
theorem Amid.give (hm : Amid r actions root tree m) (child : Child)
    (htasks : m.tasks = child.task :: rest) {v : V} {events : Array (ValueEvent V)}
    (hgive : ∀ leaf, r.Stands child leaf → leaf.IsLeaf r.grammar.structural →
      (leaf.evaluate r actions).runFrom m.events = (.ok v, events)) :
    Amid r actions root tree ⟨rest, v :: m.values, events⟩ := by
  rcases hm.child_cases child htasks with ⟨-, rfl⟩ | ⟨leaf, hstands, hleaf, -, hnext⟩
  · exact .stop rfl
  · exact hnext v events (hgive leaf hstands hleaf)

/-- What the machine is to reduce is a rule of the tree, all leaves of which were worked off since
    it was visited. Their values are on top of the stack. -/
theorem Amid.reduce_cases (hm : Amid r actions root tree m)
    (htasks : m.tasks = .reduce ref count :: rest) :
    ∃ it rule us outer vs, r.AppliesIn tree ref it rule us ∧ Amid r actions root tree outer ∧
      outer.tasks = .visit ref :: rest ∧ m.values = vs.reverse ++ outer.values ∧
      count = (r.ruleLeaves rule us).length ∧
      ((r.ruleLeaves rule us).mapM (Tree.evaluate r actions)).runFrom outer.events =
        (.ok vs, m.events) := by
  cases hm with
  | start => cases (List.cons.inj htasks).1
  | @leaves _ outer _ it rule us front _ _ _ vs houter hvisit happlies hsplit htodo hfront htasks'
      hvalues =>
    rw [htasks'] at htasks
    cases htodo with
    | @cons child _ _ _ _ _ =>
      obtain ⟨htask, -⟩ := List.cons.inj htasks
      cases child <;> cases htask
    | nil =>
      obtain ⟨htask, rfl⟩ := List.cons.inj htasks
      obtain ⟨rfl, rfl⟩ := Task.reduce.inj htask
      rw [List.append_nil] at hsplit
      refine ⟨it, rule, us, outer, vs, happlies, houter, hvisit, hvalues, ?_, hsplit ▸ hfront⟩
      rw [hsplit, List.append_nil]
  | stop htasks' =>
    rw [htasks'] at htasks
    cases htasks

/-- The value of a rule is that of its part of the tree. -/
theorem runFrom_evaluate_of_reduce (happlies : r.AppliesIn tree ref it rule us)
    (hsplice : rule.isSplice = false) {vs : List V} {v : V} {context : Option RuleContext}
    {before events : Array (ValueEvent V)}
    (hrun : ((r.ruleLeaves rule us).mapM (Tree.evaluate r actions)).runFrom before =
      (.ok vs, events)) (hreduce : r.reduce actions ref vs = .ok (v, context)) :
    ((Tree.node it.rule it.origin ref.set us).evaluate r actions).runFrom before =
      (.ok v, context.elim events fun c => events.push ⟨c, v⟩) := by
  rw [Tree.evaluate_node happlies.rule hsplice, Tree.argumentsFrom_eq_leavesFrom,
    Evaluation.runFrom_bind, hrun]
  simp only [Recognition.runFrom_apply]
  rw [Recognition.reduce_eq happlies.item happlies.rule, hsplice] at hreduce
  simp only [Bool.false_eq_true, if_false] at hreduce
  cases happly : applyRule actions
      ⟨r.grammar, r.input, rule, min (r.skip it.origin) ref.set, ref.set⟩ vs with
  | error e =>
    rw [happly] at hreduce
    cases hreduce
  | ok value =>
    rw [happly] at hreduce
    obtain ⟨rfl, rfl⟩ := Prod.mk.inj (Except.ok.inj hreduce)
    rfl

theorem Amid.step_reduce (hm : Amid r actions root tree m) (hr : r.Ended)
    (htasks : m.tasks = .reduce ref count :: rest) (h : step r actions m = .inl m') :
    Amid r actions root tree m' := by
  obtain ⟨it, rule, us, outer, vs, happlies, houter, hvisit, hvalues, rfl, hrun⟩ :=
    hm.reduce_cases htasks
  have hcount := (Evaluation.forall₂_gives_of_mapM Tree.uniform_evaluate hrun).length_eq
  obtain ⟨tasks, values, events⟩ := m
  obtain rfl : tasks = _ := htasks
  obtain rfl : values = _ := hvalues
  rw [Machine.step_reduce r actions ref hcount.symm] at h
  cases hreduce : r.reduce actions ref vs with
  | error e =>
    rw [hreduce] at h
    cases h
  | ok result =>
    obtain ⟨v, context⟩ := result
    rw [hreduce] at h
    -- The rule was visited as a leaf of the rule before, of which it is the next value.
    have hgive : Amid r actions root tree
        ⟨rest, v :: outer.values, context.elim events fun c => events.push ⟨c, v⟩⟩ := by
      refine houter.give (.node ref) hvisit fun leaf hstands hleaf => ?_
      obtain rfl := happlies.eq_of_stands hr hstands
      cases hleaf with
      | node _ _ _ hsplice =>
        rw [RuleTable.isSplice_eq happlies.rule] at hsplice
        exact runFrom_evaluate_of_reduce happlies hsplice hrun hreduce
    cases context with
    | none => exact Sum.inl.inj h ▸ hgive
    | some c => exact Sum.inl.inj h ▸ hgive

/-- Every step leaves the machine amid leaves. -/
theorem Amid.step (hm : Amid r actions root tree m) (hr : r.Ended)
    (hroot : r.AppliesIn tree root it rule us) (h : step r actions m = .inl m') :
    Amid r actions root tree m' := by
  cases htasks : m.tasks with
  | nil =>
    obtain ⟨tasks, values, events⟩ := m
    obtain rfl : tasks = [] := htasks
    cases values <;> cases h
  | cons task rest =>
    cases task with
    | visit ref =>
      obtain ⟨it, rule, us, happlies, -⟩ := hm.exists_appliesIn hr hroot htasks
      exact hm.step_visit hr happlies htasks h
    | lexeme start stop =>
      have hgive : Amid r actions root tree
          ⟨rest, Semantic.ofLexeme (r.input.between start stop) :: m.values, m.events⟩ := by
        refine hm.give (.lexeme start stop) htasks fun leaf hstands _ => ?_
        cases hstands with
        | lexeme => rfl
      obtain ⟨tasks, values, events⟩ := m
      obtain rfl : tasks = _ := htasks
      exact Sum.inl.inj h ▸ hgive
    | reduce ref count => exact hm.step_reduce hr htasks h

/-- On all of its way the machine is amid leaves. -/
theorem Amid.of_passes (hr : r.Ended) (hroot : r.AppliesIn tree root it rule us)
    (h : Passes (Machine.step r actions) (initial root) m) : Amid r actions root tree m :=
  h.invariant .start fun _ _ hm hstep => hm.step hr hroot hstep

/-- A rule takes off the values of its leaves, in their order. If it is spliced, it is that of
    the root. -/
theorem Amid.reduces (hm : Amid r actions root tree m) (hr : r.Ended)
    (hroot : r.AppliesIn tree root it rule us) (htasks : m.tasks = .reduce ref count :: rest) :
    ∃ it rule us, r.AppliesIn tree ref it rule us ∧ count = (r.ruleLeaves rule us).length ∧
      count ≤ m.values.length ∧ (ref = root ∨ rule.isSplice = false) ∧
      List.Forall₂ (fun leaf v => (leaf.evaluate r actions).Gives v) (r.ruleLeaves rule us)
        (m.values.take count).reverse := by
  obtain ⟨it', rule', us', outer, vs, happlies, houter, hvisit, hvalues, rfl, hrun⟩ :=
    hm.reduce_cases htasks
  have hgives := Evaluation.forall₂_gives_of_mapM Tree.uniform_evaluate hrun
  have hlength : vs.reverse.length = (r.ruleLeaves rule' us').length := by
    rw [List.length_reverse, hgives.length_eq]
  refine ⟨it', rule', us', happlies, rfl, ?_, ?_, ?_⟩
  · rw [hvalues, List.length_append, hlength]
    exact Nat.le_add_right _ _
  · obtain ⟨_, rule'', _, happlies', hroot'⟩ := houter.exists_appliesIn hr hroot hvisit
    obtain ⟨-, rfl, -⟩ := happlies.unique hr happlies'
    exact hroot'
  · rw [hvalues, List.take_left' hlength, List.reverse_reverse]
    exact hgives

end Machine

end Scannerless
