import Scannerless.Parser
import Scannerless.Proofs.Evaluation.Simulation

/-!
# Runs of the machine

For every recognized input the machine comes to its end, with the value or the error of
the recursion over the chosen tree. It never lacks a value on the way, and what masks drop
is not visited.

## Main definitions

- `Machine.Balanced` — tasks that find the values they need and leave one in the end.
- `Machine.Within` — all tasks are for parts of a tree that are kept.

## Main statements

- `Recognition.Ended.ends_evaluate` — the machine comes to what the recursion comes to.
- `Machine.Balanced.of_passes`, `Machine.Within.of_passes` — the stacks on the way.
- `evaluate_recursively` — evaluation is recursion over the chosen tree.
-/

namespace Scannerless

open Text

variable {V : Type} [Semantic V] {r : Recognition} {actions : Registry V} {tree : Tree}

namespace Machine

/-! ### The stack of values -/

/-- Tasks that start with some number of values never lack one, and leave one in the end. -/
def Balanced : List Task → Nat → Prop
  | [], count => count = 1
  | .visit _ :: tasks, count => Balanced tasks (count + 1)
  | .lexeme _ _ :: tasks, count => Balanced tasks (count + 1)
  | .reduce _ needed :: tasks, count => needed ≤ count ∧ Balanced tasks (count - needed + 1)

theorem balanced_leaves {leaves : List Child} {tasks : List Task} {count : Nat} :
    Balanced (leaves.map Child.task ++ tasks) count ↔ Balanced tasks (count + leaves.length) := by
  induction leaves generalizing count with
  | nil => rfl
  | cons leaf leaves ih =>
    have hlength : count + (leaf :: leaves).length = count + 1 + leaves.length := by
      rw [List.length_cons]
      omega
    rw [hlength, ← ih]
    cases leaf <;> rfl

theorem Balanced.step {m m' : Machine V} (hm : Balanced m.tasks m.values.length)
    (h : step r actions m = .inl m') : Balanced m'.tasks m'.values.length := by
  obtain ⟨tasks, values, events⟩ := m
  cases tasks with
  | nil => cases values <;> cases h
  | cons task rest =>
    cases task with
    | visit ref =>
      rw [step_visit actions rfl] at h
      obtain rfl := Sum.inl.inj h
      -- The leaves give as many values as the rule takes off again.
      rw [balanced_leaves]
      refine ⟨Nat.le_add_left _ _, ?_⟩
      rw [Nat.add_sub_cancel]
      exact hm
    | lexeme start stop =>
      obtain rfl := Sum.inl.inj h
      exact hm
    | reduce ref count =>
      obtain ⟨hcount, hrest⟩ := hm
      simp only [Machine.step] at h
      split at h
      · obtain rfl := Sum.inl.inj h
        simpa [replace] using hrest
      · cases h

/-- On the way of the machine there are always the values that its tasks need. -/
theorem Balanced.of_passes {root : ItemRef} {m : Machine V}
    (h : Passes (Machine.step r actions) (initial root) m) :
    Balanced m.tasks m.values.length :=
  h.invariant (P := fun m => Balanced m.tasks m.values.length) rfl
    fun _ _ hm hstep => hm.step hstep

/-! ### What is visited -/

/-- All tasks for leaves are for parts of a tree that are kept. -/
def Within (r : Recognition) (tree : Tree) (tasks : List Task) : Prop :=
  ∀ leaf : Child, leaf.task ∈ tasks →
    ∃ x, tree.KeptIn r.grammar.structural x ∧ r.Stands leaf x

theorem task_inj {leaf other : Child} (h : leaf.task = other.task) : leaf = other := by
  cases leaf with
  | lexeme start stop =>
    cases other with
    | lexeme start' stop' => simpa [Child.task] using h
    | node item => cases h
  | node item =>
    cases other with
    | lexeme start stop => cases h
    | node item' => simpa [Child.task] using h

theorem Within.tail {task : Task} {rest : List Task} (h : Within r tree (task :: rest)) :
    Within r tree rest :=
  fun leaf hleaf => h leaf (List.mem_cons_of_mem task hleaf)

theorem Within.step {m m' : Machine V} (hr : r.Ended) (hm : Within r tree m.tasks)
    (h : step r actions m = .inl m') : Within r tree m'.tasks := by
  obtain ⟨tasks, values, events⟩ := m
  cases tasks with
  | nil => cases values <;> cases h
  | cons task rest =>
    cases task with
    | visit ref =>
      rw [step_visit actions rfl] at h
      obtain rfl := Sum.inl.inj h
      obtain ⟨x, hx, hstands⟩ := hm (.node ref) List.mem_cons_self
      intro leaf hleaf
      rcases List.mem_append.mp hleaf with hleaf | hleaf
      · obtain ⟨other, hother, htask⟩ := List.mem_map.mp hleaf
        obtain rfl := task_inj htask
        -- A leaf of a part that is kept is kept itself.
        obtain ⟨y, hy, hstands'⟩ := hr.kept_of_mem_leaves actions hstands hother
        exact ⟨y, hx.trans hy, hstands'⟩
      · rcases List.mem_cons.mp hleaf with hleaf | hleaf
        · cases leaf <;> cases hleaf
        · exact hm.tail leaf hleaf
    | lexeme start stop =>
      obtain rfl := Sum.inl.inj h
      exact hm.tail
    | reduce ref count =>
      simp only [Machine.step] at h
      split at h
      · obtain rfl := Sum.inl.inj h
        exact hm.tail
      · cases h

/-- The machine visits no part of a tree that is dropped. -/
theorem Within.of_passes (hr : r.Ended) {root : ItemRef} {m : Machine V}
    (hroot : r.Stands (.node root) tree)
    (h : Passes (Machine.step r actions) (initial root) m) : Within r tree m.tasks := by
  refine h.invariant (P := fun m => Within r tree m.tasks) (fun leaf hleaf => ?_)
    fun _ _ hm hstep => hm.step hr hstep
  obtain rfl : leaf = .node root := task_inj (List.mem_singleton.mp hleaf)
  exact ⟨tree, .refl, hroot⟩

end Machine

/-! ### Values -/

namespace Recognition

variable {root : ItemRef} {it : Item} {us : List Tree}

/-- The chosen root is a complete item of a rule of the start symbol. -/
theorem Ended.chooseRoot_cases (hr : r.Ended) (hroot : r.chooseRoot = some root)
    (hit : r.run.chart.item? root = some it) :
    it = ⟨it.rule, (r.grammar.structural.rhs it.rule).length, 0⟩ ∧
      ∃ rule, r.grammar.structural.rule? it.rule = some rule ∧ rule.lhs = r.grammar.start := by
  obtain ⟨-, id, hid, hit'⟩ := hr.mem_roots_iff.mp (mem_of_mostPreferred hroot)
  obtain rfl := Option.some_inj.mp (hit.symm.trans hit')
  obtain ⟨rule, hrule, hlhs⟩ := Option.map_eq_some_iff.mp hid
  exact ⟨rfl, rule, hrule, hlhs⟩

theorem Ended.reads_of_follows (hr : r.Ended) (hroot : r.chooseRoot = some root)
    (hit : r.run.chart.item? root = some it) (hus : r.Follows root us) :
    r.grammar.structural.Reads r.lattice (r.grammar.structural.rhs it.rule) it.origin root.set
      us := by
  have hreads := (hr.reading_iff_reads hr.fits_lattice hit us).mp hus.reading
  rw [(hr.chooseRoot_cases hroot hit).1] at hreads ⊢
  rwa [List.take_length] at hreads

/-- The chosen tree gives a single value, or fails at the first action that is not bound. -/
theorem Ended.yields_arguments (hr : r.Ended) (actions : Registry V)
    (hroot : r.chooseRoot = some root) (hit : r.run.chart.item? root = some it)
    (hus : r.Follows root us) :
    Evaluation.Yields actions
      ((Tree.node it.rule it.origin root.set us).arguments r actions)
      ((Tree.node it.rule it.origin root.set us).actionNames r.grammar)
      fun vs => vs.length = 1 := by
  obtain ⟨tiers, htiers, hstart⟩ := hr.coherent.tiers
  obtain ⟨-, rule, hrule, hlhs⟩ := hr.chooseRoot_cases hroot hit
  have hreads := hr.reads_of_follows hroot hit hus
  rw [RuleTable.rhs_of_rule? hrule] at hreads
  have hargs : Evaluation.Yields actions _ _ _ :=
    Tree.yields_argumentsFrom hr.coherent.structural htiers hreads rule
  exact (Tree.yields_node hrule htiers hargs).mono fun vs hvs => hvs (hlhs ▸ hstart)

/-- To visit the chosen root is to do what the recursion does with the chosen tree. -/
theorem Ended.does_visit_root (hr : r.Ended) (actions : Registry V)
    (hroot : r.chooseRoot = some root) (hit : r.run.chart.item? root = some it)
    (hus : r.Follows root us) :
    Machine.Does r actions [.visit root]
      ((Tree.node it.rule it.origin root.set us).arguments r actions) := by
  obtain ⟨-, rule, hrule, -⟩ := hr.chooseRoot_cases hroot hit
  have hcomes := hr.exists_comesAll_children actions hit hus hrule
  have hyields := hr.yields_arguments actions hroot hit hus
  rw [arguments_node hrule] at hyields ⊢
  cases hsplice : rule.isSplice with
  | true =>
    simp only [hsplice, if_true, bind_pure] at hyields ⊢
    exact hcomes.does.visit_of_isSplice hit hrule hsplice rfl fun _ _ hok => hyields.of_ok hok
  | false => exact hcomes.does.visit hit hrule hsplice rfl

/-- The machine comes to what the recursion over the chosen tree comes to. -/
theorem Ended.ends_evaluate (hr : r.Ended) (actions : Registry V)
    (hroot : r.chooseRoot = some root) (hit : r.run.chart.item? root = some it)
    (hus : r.Follows root us) :
    Ends (Machine.step r actions) (Machine.initial root)
      (((Tree.node it.rule it.origin root.set us).evaluate r actions).runFrom #[]) := by
  have hdoes := hr.does_visit_root actions hroot hit hus [] [] #[]
  have hyields := hr.yields_arguments actions hroot hit hus
  rw [Tree.evaluate, Evaluation.runFrom_bind]
  cases hrun : ((Tree.node it.rule it.origin root.set us).arguments r actions).runFrom #[] with
  | mk result events =>
    rw [hrun] at hdoes
    cases result with
    | error e => exact hdoes
    | ok vs =>
      obtain ⟨v, rfl⟩ := List.length_eq_one_iff.mp (hyields.of_ok (by rw [hrun]))
      exact hdoes.2.ends (.done rfl)

theorem Ended.evaluate_eq (hr : r.Ended) (actions : Registry V) (h : r.Chosen tree) :
    r.evaluate actions = (tree.evaluate r actions).runFrom #[] := by
  obtain ⟨root, it, us, hroot, hit, hus, rfl⟩ := h
  rw [evaluate, hroot]
  exact (hr.ends_evaluate actions hroot hit hus).loop_eq

/-- An evaluation fails at the first action that is not bound. -/
theorem Ended.evaluate_eq_error_iff (hr : r.Ended) (actions : Registry V) (h : r.Chosen tree)
    (e : RunError) :
    (r.evaluate actions).1 = .error e ↔
      ∃ name, actions.firstUnbound (tree.actionNames r.grammar) = some name ∧
        e = .unboundAction name := by
  rw [hr.evaluate_eq actions h]
  obtain ⟨root, it, us, hroot, hit, hus, rfl⟩ := h
  obtain ⟨-, rule, hrule, hlhs⟩ := hr.chooseRoot_cases hroot hit
  obtain ⟨tiers, htiers, hstart⟩ := hr.coherent.tiers
  have hreads := hr.reads_of_follows hroot hit hus
  have hid : r.grammar.structural.lhs? it.rule = some r.grammar.start :=
    Option.map_eq_some_iff.mpr ⟨rule, hrule, hlhs⟩
  exact (Tree.yields_evaluate hr.coherent.structural htiers hid hstart hreads).error_iff #[] e

end Recognition

/-- Evaluation is recursion over the chosen tree: the machine comes to its end with the value
    or the error of the recursion, an error being the first action that is not bound. On its
    way no value is lacking that is to be replaced, one value is left in the end, and only
    parts of the tree that are kept are visited, each by finding its leaves. -/
theorem evaluate_recursively {g : Grammar} {limit : Option Nat} {input : String}
    (hg : g.IsCompiled) (hr : recognize g limit input = .ok r) (hok : r.failure? = none)
    (actions : Registry V) :
    ∃ tree, r.Chosen tree ∧ (∀ other, r.Chosen other → other = tree) ∧
      r.evaluate actions = (tree.evaluate r actions).runFrom #[] ∧
      (∀ e, (r.evaluate actions).1 = .error e ↔
        ∃ name, actions.firstUnbound (tree.actionNames r.grammar) = some name ∧
          e = .unboundAction name) ∧
      ∃ root, r.chooseRoot = some root ∧
        Ends (Machine.step r actions) (Machine.initial root) (r.evaluate actions) ∧
        ∀ m, Passes (Machine.step r actions) (Machine.initial root) m →
          (∀ ref count rest, m.tasks = .reduce ref count :: rest → count ≤ m.values.length) ∧
          (m.tasks = [] → m.values.length = 1) ∧
          Machine.Within r tree m.tasks ∧
          ∀ ref, .visit ref ∈ m.tasks → Ends r.leavesStep ([.expand ref], #[]) (r.leaves ref) := by
  have hended := ended_of_recognize hg hr
  obtain ⟨tree, hchosen⟩ := hended.exists_chosen hok
  obtain ⟨root, it, us, hroot, hit, hus, rfl⟩ := id hchosen
  have hends := hended.ends_evaluate actions hroot hit hus
  have heval := hended.evaluate_eq actions hchosen
  refine ⟨_, hchosen, fun other hother => hother.unique hended hchosen, heval,
    hended.evaluate_eq_error_iff actions hchosen, root, hroot, heval ▸ hends, fun m hm => ?_⟩
  have hbalanced := Machine.Balanced.of_passes hm
  have hcomplete : r.grammar.structural.next? it = none := by
    rw [(hended.chooseRoot_cases hroot hit).1]
    exact RuleTable.next?_eq_none_iff.mpr (Nat.le_refl _)
  have hwithin := Machine.Within.of_passes hended (.node hit hcomplete hus) hm
  refine ⟨fun ref count rest htasks => ?_, fun htasks => ?_, hwithin, fun ref href => ?_⟩
  · rw [htasks] at hbalanced
    exact hbalanced.1
  · rw [htasks] at hbalanced
    exact hbalanced
  · obtain ⟨x, -, hstands⟩ := hwithin (.node ref) href
    exact hended.ends_leaves actions hstands

/-- The recursion over the chosen tree of a sum says what its evaluation comes to. -/
theorem evaluate_recursively_sums :
    ∃ g r tree, Definition.sums.compile = .ok g ∧ recognize g none "a+a+a" = .ok r ∧
      r.Chosen tree ∧
      r.evaluate (.empty : Registry Value) = (tree.evaluate r .empty).runFrom #[] := by
  obtain ⟨g, r, hg, hr, hok⟩ := exists_recognize_sums
  obtain ⟨tree, hchosen, -, heval, -⟩ := evaluate_recursively (Or.inl ⟨_, hg⟩) hr hok
    (.empty : Registry Value)
  exact ⟨g, r, tree, hg, hr, hchosen, heval⟩

end Scannerless
