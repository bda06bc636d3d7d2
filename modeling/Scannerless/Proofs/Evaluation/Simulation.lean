import Scannerless.Proofs.Evaluation.Recursion
import Scannerless.Proofs.Loop
import Scannerless.Proofs.Recognition.Choice

/-!
# The machine evaluates by recursion

Two stacks stand for the recursion over the chosen tree: one of children that are to be
expanded, while the leaves of a rule are looked for, and one of tasks. Whatever else lies
on a stack is not touched before what was put on top of it is done.

## Main definitions

- `Recognition.Stands` — a child stands for a tree.
- `Recognition.Expands` — what comes of children while leaves are looked for.
- `Machine.Does` — tasks do what a recursive evaluation does.
- `Recognition.Comes` — the leaves of a child do what the recursion does with its tree.

## Main statements

- `Recognition.Ended.exists_comesAll` — the children of a rule.
- `Machine.Does.visit` — a visit does what the recursion does.
-/

namespace Scannerless

open Text

/-! ### Looking for leaves -/

namespace Recognition

variable {r : Recognition} {ref : ItemRef} {ps qs : List Pending} {found more : List Child}

/-- Some children have been worked off, and their leaves are found. -/
def Expands (r : Recognition) (ps : List Pending) (found : List Child) : Prop :=
  ∀ rest before,
    Passes r.leavesStep (ps ++ rest, before) (rest, before ++ found.toArray)

theorem Expands.nil : r.Expands [] [] := by
  intro rest before
  have hsame : before ++ ([] : List Child).toArray = before := Array.append_empty
  rw [List.nil_append, hsame]
  exact Passes.refl _

theorem Expands.append (hp : r.Expands ps found) (hq : r.Expands qs more) :
    r.Expands (ps ++ qs) (found ++ more) := by
  intro rest before
  have hfirst := hp (qs ++ rest) before
  have hsecond := hq rest (before ++ found.toArray)
  rw [List.append_assoc]
  refine hfirst.trans ?_
  simpa [Array.append_assoc] using hsecond

theorem Expands.emit (leaf : Child) : r.Expands [.emit leaf] [leaf] := by
  intro rest before
  have hstep : r.leavesStep (.emit leaf :: rest, before) = .inl (rest, before.push leaf) := rfl
  simpa using Passes.one hstep

/-- The children of a rule come to lie on the stack from left to right. -/
theorem Expands.expand (h : r.Expands ((r.children ref).map r.pendingFor) found) :
    r.Expands [.expand ref] found := by
  intro rest before
  have hstep : r.leavesStep (.expand ref :: rest, before) =
      .inl ((r.children ref).map r.pendingFor ++ rest, before) := by
    rw [leavesStep, List.foldl_reverse, List.foldr_cons_eq_append]
  exact (Passes.one hstep).trans (h rest before)

theorem Expands.ends (h : r.Expands [.expand ref] found) :
    Ends r.leavesStep ([.expand ref], #[]) found := by
  have hpasses := h [] #[]
  rw [List.append_nil] at hpasses
  refine hpasses.ends (.done ?_)
  simp [leavesStep]

theorem Expands.leaves_eq (h : r.Expands [.expand ref] found) : r.leaves ref = found :=
  h.ends.loop_eq

end Recognition

/-! ### Doing tasks -/

section

variable {V : Type} [Semantic V] {r : Recognition} {actions : Registry V}

namespace Machine

/-- Tasks do what a recursive evaluation does: they leave a value for each task, or come to
    the error of the evaluation. -/
def Does (r : Recognition) (actions : Registry V) (tasks : List Task)
    (x : Evaluation V (List V)) : Prop :=
  ∀ rest values events,
    match x.runFrom events with
    | (.ok vs, events') =>
      vs.length = tasks.length ∧
        Passes (step r actions) ⟨tasks ++ rest, values, events⟩
          ⟨rest, vs.reverse ++ values, events'⟩
    | (.error e, events') =>
      Ends (step r actions) ⟨tasks ++ rest, values, events⟩ (.error e, events')

theorem Does.nil : Does r actions [] (pure []) :=
  fun _ _ _ => ⟨rfl, .refl _⟩

theorem Does.append {tasks others : List Task} {x y : Evaluation V (List V)}
    (hx : Does r actions tasks x) (hy : Does r actions others y) :
    Does r actions (tasks ++ others) (do
      let front ← x
      let back ← y
      return front ++ back) := by
  intro rest values events
  have hfirst := hx (others ++ rest) values events
  rw [Evaluation.runFrom_bind, List.append_assoc]
  cases hrun : x.runFrom events with
  | mk result events' =>
    rw [hrun] at hfirst
    cases result with
    | error e => exact hfirst
    | ok front =>
      obtain ⟨hlength, hpasses⟩ := hfirst
      have hsecond := hy rest (front.reverse ++ values) events'
      simp only [Evaluation.runFrom_bind]
      cases hrun' : y.runFrom events' with
      | mk result' events'' =>
        rw [hrun'] at hsecond
        cases result' with
        | error e => exact hpasses.ends hsecond
        | ok back =>
          obtain ⟨hlength', hpasses'⟩ := hsecond
          refine ⟨by simp [hlength, hlength'], ?_⟩
          rw [List.reverse_append, List.append_assoc]
          exact hpasses.trans hpasses'

theorem Does.lexeme (start stop : Nat) :
    Does r actions [.lexeme start stop]
      (pure [Semantic.ofLexeme (r.input.between start stop)]) :=
  fun _ _ _ => ⟨rfl, .one rfl⟩

theorem step_visit (actions : Registry V) {ref : ItemRef} {leaves : List Child}
    (hleaves : r.leaves ref = leaves) (rest : List Task) (values : List V)
    (events : Array (ValueEvent V)) :
    step r actions ⟨.visit ref :: rest, values, events⟩ =
      .inl ⟨leaves.map Child.task ++ .reduce ref leaves.length :: rest, values, events⟩ := by
  simp only [step, visit, hleaves, List.foldl_reverse, List.foldr_cons_eq_append]

theorem step_reduce (r : Recognition) (actions : Registry V) (ref : ItemRef) {vs : List V}
    {count : Nat} (hcount : vs.length = count) (rest : List Task) (values : List V)
    (events : Array (ValueEvent V)) :
    step r actions ⟨.reduce ref count :: rest, vs.reverse ++ values, events⟩ =
      match r.reduce actions ref vs with
      | .ok (value, context) =>
        .inl ⟨rest, value :: values,
          match context with
          | some c => events.push ⟨c, value⟩
          | none => events⟩
      | .error e => .inr (.error e, events) := by
  have hlength : vs.reverse.length = count := by rw [List.length_reverse, hcount]
  cases h : r.reduce actions ref vs with
  | error e => simp only [step, List.take_left' hlength, List.reverse_reverse, h]
  | ok result =>
    -- the two ways to note a value are matches of their own
    rcases result with ⟨value, _ | context⟩ <;>
      simp only [step, List.take_left' hlength, List.reverse_reverse, h, replace,
        List.drop_left' hlength]

end Machine

namespace Recognition

variable {ref : ItemRef} {it : Item} {rule : Rule}

theorem ruleId_eq (hit : r.run.chart.item? ref = some it) : r.ruleId ref = it.rule := by
  rw [ruleId, entry?_of_item? hit]

theorem rule?_eq (hit : r.run.chart.item? ref = some it) :
    r.rule? ref = r.grammar.structural.rule? it.rule := by
  rw [rule?, ruleId_eq hit]

theorem isSplice_eq (hit : r.run.chart.item? ref = some it)
    (hrule : r.grammar.structural.rule? it.rule = some rule) :
    r.isSplice ref = rule.isSplice := by
  rw [isSplice, rule?_eq hit, hrule]
  rfl

theorem children_eq (hit : r.run.chart.item? ref = some it)
    (hrule : r.grammar.structural.rule? it.rule = some rule) :
    r.children ref = r.childrenFrom rule it.dot ref [] := by
  rw [children, rule?_eq hit, hrule, entry?_of_item? hit]

/-- The value of the rule of an item is that of the rule over the span of the item. -/
theorem reduce_eq (hit : r.run.chart.item? ref = some it)
    (hrule : r.grammar.structural.rule? it.rule = some rule) (arguments : List V) :
    r.reduce actions ref arguments =
      if rule.isSplice then .ok (collapse arguments, none)
      else
        let context : RuleContext :=
          ⟨r.grammar, r.input, rule, min (r.skip it.origin) ref.set, ref.set⟩
        (applyRule actions context arguments).map fun value => (value, some context) := by
  rw [reduce, rule?_eq hit, hrule, entry?_of_item? hit]
  rfl

end Recognition

namespace Machine

variable {ref : ItemRef} {it : Item} {rule : Rule} {leaves : List Child}
  {x : Evaluation V (List V)}

/-- To visit the item of a rule that is not spliced is to apply the rule to what its leaves
    give. -/
theorem Does.visit (hx : Does r actions (leaves.map Child.task) x)
    (hit : r.run.chart.item? ref = some it)
    (hrule : r.grammar.structural.rule? it.rule = some rule) (hsplice : rule.isSplice = false)
    (hleaves : r.leaves ref = leaves) :
    Does r actions [.visit ref] (do
      let arguments ← x
      return [← r.apply actions rule it.origin ref.set arguments]) := by
  intro rest values events
  -- The leaves are put on the stack, they give their values, and the rule takes these off.
  have hvisit := Passes.one (step_visit actions hleaves rest values events)
  have hargs := hx (.reduce ref leaves.length :: rest) values events
  rw [Evaluation.runFrom_bind]
  cases hrun : x.runFrom events with
  | mk result events' =>
    rw [hrun] at hargs
    cases result with
    | error e => exact hvisit.ends hargs
    | ok vs =>
      obtain ⟨hlength, hpasses⟩ := hargs
      rw [List.length_map] at hlength
      have hreduce := step_reduce r actions ref hlength rest values events'
      rw [Recognition.reduce_eq hit hrule, hsplice] at hreduce
      simp only [Evaluation.runFrom_bind, Recognition.runFrom_apply]
      cases happly : applyRule actions
          ⟨r.grammar, r.input, rule, min (r.skip it.origin) ref.set, ref.set⟩ vs with
      | error e =>
        simp only [happly] at hreduce
        exact hvisit.ends (hpasses.ends (.done hreduce))
      | ok value =>
        simp only [happly] at hreduce
        exact ⟨rfl, hvisit.trans (hpasses.trans (.one hreduce))⟩

/-- To visit the item of a spliced rule is to pass on the only value that its leaves give. -/
theorem Does.visit_of_isSplice (hx : Does r actions (leaves.map Child.task) x)
    (hit : r.run.chart.item? ref = some it)
    (hrule : r.grammar.structural.rule? it.rule = some rule) (hsplice : rule.isSplice = true)
    (hleaves : r.leaves ref = leaves)
    (hsingle : ∀ events vs, (x.runFrom events).1 = .ok vs → vs.length = 1) :
    Does r actions [.visit ref] x := by
  intro rest values events
  have hvisit := Passes.one (step_visit actions hleaves rest values events)
  have hargs := hx (.reduce ref leaves.length :: rest) values events
  have hone := hsingle events
  cases hrun : x.runFrom events with
  | mk result events' =>
    rw [hrun] at hargs hone
    cases result with
    | error e => exact hvisit.ends hargs
    | ok vs =>
      obtain ⟨hlength, hpasses⟩ := hargs
      rw [List.length_map] at hlength
      have hreduce := step_reduce r actions ref hlength rest values events'
      rw [Recognition.reduce_eq hit hrule, if_pos hsplice] at hreduce
      obtain ⟨v, rfl⟩ := List.length_eq_one_iff.mp (hone vs rfl)
      exact ⟨rfl, hvisit.trans (hpasses.trans (.one hreduce))⟩

end Machine

/-! ### The chosen tree -/

namespace Tree

/-- The rule of a tree keeps a child. -/
inductive Keeps (t : RuleTable) : Tree → Tree → Prop where
  | child {id : RuleId} {rule : Rule} {origin stop place : Nat} {children : List Tree}
      {child : Tree} (hrule : t.rule? id = some rule) (hkeeps : rule.keeps place = true)
      (hchild : children[place]? = some child) : Keeps t (.node id origin stop children) child

/-- A part of a tree that no rule above it drops. -/
def KeptIn (t : RuleTable) : Tree → Tree → Prop :=
  Relation.ReflTransGen (Keeps t)

end Tree

namespace Recognition

variable {ref : ItemRef} {it : Item} {rule : Rule} {child : Child} {tree : Tree}
  {children leaves more : List Child} {ts : List Tree}

/-- A child stands for a tree. -/
inductive Stands (r : Recognition) : Child → Tree → Prop where
  | lexeme (s : SymbolId) (place start stop : Nat) :
      Stands r (.lexeme start stop) (.token s place start stop)
  | node {ref : ItemRef} {it : Item} {us : List Tree}
      (hit : r.run.chart.item? ref = some it)
      (hcomplete : r.grammar.structural.next? it = none) (hus : r.Follows ref us) :
      Stands r (.node ref) (.node it.rule it.origin ref.set us)

/-- The leaves of a child, which do what the recursion does with its tree. -/
structure Comes (r : Recognition) (actions : Registry V) (child : Child) (tree : Tree)
    (leaves : List Child) : Prop where
  expands : r.Expands [r.pendingFor child] leaves
  does : Machine.Does r actions (leaves.map Child.task) (tree.arguments r actions)
  kept : ∀ leaf ∈ leaves, ∃ x, tree.KeptIn r.grammar.structural x ∧ r.Stands leaf x

/-- The leaves of the children that a rule keeps, which do what the recursion does with the
    trees of the rule. -/
structure ComesAll (r : Recognition) (actions : Registry V) (rule : Rule)
    (children : List Child) (ts : List Tree) (leaves : List Child) : Prop where
  expands : r.Expands (children.map r.pendingFor) leaves
  does : Machine.Does r actions (leaves.map Child.task) (Tree.argumentsFrom r actions rule 0 ts)
  kept : ∀ leaf ∈ leaves, ∃ place tree x, rule.keeps place = true ∧ ts[place]? = some tree ∧
    tree.KeptIn r.grammar.structural x ∧ r.Stands leaf x

theorem ComesAll.nil : r.ComesAll actions rule [] [] [] where
  expands := .nil
  does := .nil
  kept := by simp

theorem ComesAll.concat_kept (h : r.ComesAll actions rule children ts leaves)
    (hchild : r.Comes actions child tree more) (hkeeps : rule.keeps ts.length = true) :
    r.ComesAll actions rule (children ++ [child]) (ts ++ [tree]) (leaves ++ more) where
  expands := by
    rw [List.map_append]
    exact h.expands.append hchild.expands
  does := by
    rw [Tree.argumentsFrom_concat, Nat.zero_add, if_pos hkeeps, List.map_append]
    exact h.does.append hchild.does
  kept leaf hleaf := by
    rcases List.mem_append.mp hleaf with hleaf | hleaf
    · obtain ⟨place, tree', x, hplace, htree, hx⟩ := h.kept leaf hleaf
      have hlt := (List.getElem?_eq_some_iff.mp htree).1
      exact ⟨place, tree', x, hplace, by rwa [List.getElem?_append_left hlt], hx⟩
    · obtain ⟨x, hx⟩ := hchild.kept leaf hleaf
      exact ⟨ts.length, tree, x, hkeeps, by simp, hx⟩

theorem ComesAll.concat_dropped (h : r.ComesAll actions rule children ts leaves)
    (hkeeps : rule.keeps ts.length = false) :
    r.ComesAll actions rule children (ts ++ [tree]) leaves where
  expands := h.expands
  does := by
    rw [Tree.argumentsFrom_concat, Nat.zero_add, hkeeps]
    simpa using h.does
  kept leaf hleaf := by
    obtain ⟨place, tree', x, hplace, htree, hx⟩ := h.kept leaf hleaf
    have hlt := (List.getElem?_eq_some_iff.mp htree).1
    exact ⟨place, tree', x, hplace, by rwa [List.getElem?_append_left hlt], hx⟩

theorem comes_lexeme (s : SymbolId) (place start stop : Nat) :
    r.Comes actions (.lexeme start stop) (.token s place start stop) [.lexeme start stop] where
  expands := .emit _
  does := .lexeme start stop
  kept leaf hleaf := by
    obtain rfl := List.mem_singleton.mp hleaf
    exact ⟨_, .refl, .lexeme s place start stop⟩

theorem arguments_node {id : RuleId} (hrule : r.grammar.structural.rule? id = some rule)
    (origin stop : Nat) :
    (Tree.node id origin stop ts).arguments r actions = do
      let arguments ← Tree.argumentsFrom r actions rule 0 ts
      if rule.isSplice then return arguments
      else return [← r.apply actions rule origin stop arguments] := by
  rw [Tree.arguments, hrule]

/-- The leaves of a rule come of the item of the rule if the rule is spliced. Else the item
    is a leaf itself. -/
theorem ComesAll.exists_comes (h : r.ComesAll actions rule (r.children ref) ts leaves)
    (hit : r.run.chart.item? ref = some it)
    (hrule : r.grammar.structural.rule? it.rule = some rule)
    (hcomplete : r.grammar.structural.next? it = none) (hts : r.Follows ref ts) :
    ∃ found, r.Comes actions (.node ref) (.node it.rule it.origin ref.set ts) found := by
  have hsplice := isSplice_eq hit hrule
  cases hcases : rule.isSplice with
  | true =>
    rw [hcases] at hsplice
    refine ⟨leaves, ⟨?_, ?_, fun leaf hleaf => ?_⟩⟩
    · rw [pendingFor, if_pos hsplice]
      exact h.expands.expand
    · rw [arguments_node hrule, hcases]
      simpa using h.does
    · obtain ⟨place, tree, x, hkeeps, htree, hx, hstands⟩ := h.kept leaf hleaf
      exact ⟨x, .head (.child hrule hkeeps htree) hx, hstands⟩
  | false =>
    rw [hcases] at hsplice
    refine ⟨[.node ref], ⟨?_, ?_, fun leaf hleaf => ?_⟩⟩
    · rw [pendingFor, hsplice]
      exact .emit _
    · rw [arguments_node hrule, hcases]
      exact h.does.visit hit hrule hcases h.expands.expand.leaves_eq
    · obtain rfl := List.mem_singleton.mp hleaf
      exact ⟨_, .refl, .node hit hcomplete hts⟩

/-- The children of a rule are found from the last to the first. -/
theorem childrenFrom_succ {src : Source} (hit : r.run.chart.item? ref = some it)
    (hchosen : r.chosen? ref = some src) (steps : Nat) (found : List Child) :
    r.childrenFrom rule (steps + 1) ref found =
      r.childrenFrom rule steps src.item
        (if rule.keeps (it.dot - 1) then Recognition.child ref.set src :: found else found) := by
  rw [chosen?, entry?_of_item? hit, Option.bind_some] at hchosen
  rw [childrenFrom, entry?_of_item? hit]
  simp only [hchosen]

/-- One more child of a rule that follows others. -/
theorem exists_comesAll_concat {src : Source} {w : Item}
    (hit : r.run.chart.item? ref = some w.advanced) (hchosen : r.chosen? ref = some src)
    (hlength : ts.length = w.dot)
    (hchildren : ∀ found, r.childrenFrom rule w.dot src.item found = children ++ found)
    (h : r.ComesAll actions rule children ts leaves)
    (hchild : r.Comes actions (Recognition.child ref.set src) tree more) :
    ∃ children leaves, (∀ found, r.childrenFrom rule w.advanced.dot ref found = children ++ found) ∧
      r.ComesAll actions rule children (ts ++ [tree]) leaves := by
  -- Children are found from the last one to the first, so that the last one is added first.
  have hnext (found : List Child) : r.childrenFrom rule (w.dot + 1) ref found = _ :=
    childrenFrom_succ hit hchosen w.dot found
  cases hkeeps : rule.keeps w.dot with
  | true =>
    refine ⟨_, _, fun found => ?_, h.concat_kept hchild (hlength ▸ hkeeps)⟩
    rw [Item.advanced, hnext, Item.advanced, Nat.add_sub_cancel, if_pos hkeeps, hchildren,
      List.append_assoc]
    rfl
  | false =>
    refine ⟨_, _, fun found => ?_, h.concat_dropped (hlength ▸ hkeeps)⟩
    rw [Item.advanced, hnext, Item.advanced, Nat.add_sub_cancel, if_neg (by simp [hkeeps]),
      hchildren]

/-- The leaves of the children of a rule do what the recursion does with its trees. The
    induction is on how the trees were read. -/
theorem Ended.exists_comesAll (hr : r.Ended) (actions : Registry V) (h : r.Follows ref ts)
    (hit : r.run.chart.item? ref = some it) (rule : Rule) :
    ts.length = it.dot ∧ ∃ children leaves,
      (∀ found, r.childrenFrom rule it.dot ref found = children ++ found) ∧
        r.ComesAll actions rule children ts leaves := by
  induction h generalizing it rule with
  | predicted hit' hdot =>
    obtain rfl := Option.some_inj.mp (hit'.symm.trans hit)
    refine ⟨hdot.symm, [], [], fun found => ?_, .nil⟩
    rw [hdot, childrenFrom, List.nil_append]
  | @completed ref source trigger _ child ts us hit' hchosen hchild hts hus ihts ihus =>
    obtain rfl := Option.some_inj.mp (hit'.symm.trans hit)
    obtain ⟨w, rfl⟩ := hr.exists_eq_advanced hit hchosen
    rcases hr.chosen?_cases hit hchosen with ⟨_, _, hsrc, hw, hover, -⟩ | ⟨_, hsrc, -⟩
    · cases hsrc
      obtain ⟨s, id, hs, -, hlhs, hchild'⟩ := hover
      obtain rfl := Option.some_inj.mp (hchild.symm.trans hchild')
      obtain ⟨rule', hrule', -⟩ := Option.map_eq_some_iff.mp hlhs
      -- The item before the dot moved has the front children, the trigger has the last one.
      obtain ⟨hlength, children, leaves, hchildren, hcomes⟩ := ihts hw rule
      obtain ⟨-, children', leaves', hchildren', hcomes'⟩ := ihus hchild rule'
      have heq : r.children trigger = children' := by
        rw [children_eq hchild hrule', hchildren', List.append_nil]
      rw [← heq] at hcomes'
      obtain ⟨more, hmore⟩ := hcomes'.exists_comes hchild hrule'
        (RuleTable.next?_eq_none_iff.mpr (Nat.le_refl _)) hus
      exact ⟨by simp [hlength, Item.advanced],
        exists_comesAll_concat hit hchosen hlength hchildren hcomes hmore⟩
    · cases hsrc
  | @scanned ref source start _ w s ts hit' hchosen hw hs hts ihts =>
    obtain rfl := Option.some_inj.mp (hit'.symm.trans hit)
    obtain ⟨w', rfl⟩ := hr.exists_eq_advanced hit hchosen
    rcases hr.chosen?_cases hit hchosen with ⟨_, _, hsrc, -⟩ | ⟨_, hsrc, hw', -⟩
    · cases hsrc
    · cases hsrc
      obtain ⟨hlength, children, leaves, hchildren, hcomes⟩ := ihts hw' rule
      exact ⟨by simp [hlength, Item.advanced],
        exists_comesAll_concat hit hchosen hlength hchildren hcomes (comes_lexeme _ _ _ _)⟩

/-- The children of a complete item do what the recursion does with its trees. -/
theorem Ended.exists_comesAll_children (hr : r.Ended) (actions : Registry V)
    (hit : r.run.chart.item? ref = some it) (h : r.Follows ref ts)
    (hrule : r.grammar.structural.rule? it.rule = some rule) :
    r.ComesAll actions rule (r.children ref) ts (r.leaves ref) := by
  obtain ⟨-, children, leaves, hchildren, hcomes⟩ := hr.exists_comesAll actions h hit rule
  have heq : r.children ref = children := by
    rw [children_eq hit hrule, hchildren, List.append_nil]
  rw [← heq] at hcomes
  have hleaves := hcomes.expands.expand.leaves_eq
  rwa [hleaves]

/-- The leaves of an item stand for parts of its tree that are kept. -/
theorem Ended.kept_of_mem_leaves (hr : r.Ended) (actions : Registry V) {leaf : Child}
    (h : r.Stands (.node ref) tree) (hleaf : leaf ∈ r.leaves ref) :
    ∃ x, tree.KeptIn r.grammar.structural x ∧ r.Stands leaf x := by
  cases h with
  | node hit _ hus =>
    obtain ⟨s, hs⟩ := (hr.admits hit).lhs
    obtain ⟨rule, hrule, -⟩ := Option.map_eq_some_iff.mp hs
    obtain ⟨place, child, x, hkeeps, hchild, hx, hstands⟩ :=
      (hr.exists_comesAll_children actions hit hus hrule).kept leaf hleaf
    exact ⟨x, .head (.child hrule hkeeps hchild) hx, hstands⟩

/-- Looking for the leaves of an item comes to an end. -/
theorem Ended.ends_leaves (hr : r.Ended) (actions : Registry V)
    (h : r.Stands (.node ref) tree) :
    Ends r.leavesStep ([.expand ref], #[]) (r.leaves ref) := by
  cases h with
  | node hit _ hus =>
    obtain ⟨s, hs⟩ := (hr.admits hit).lhs
    obtain ⟨rule, hrule, -⟩ := Option.map_eq_some_iff.mp hs
    exact (hr.exists_comesAll_children actions hit hus hrule).expands.expand.ends

end Recognition

end

end Scannerless
