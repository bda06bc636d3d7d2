import Mathlib.Data.List.Forall2
import Scannerless.Proofs.Evaluation.Meanings
import Scannerless.Proofs.Evaluation.Simulation

/-!
# Leaves of trees

A rule that is not spliced gets the values of its leaves. A token that the rule keeps is a
leaf, so is a child with a rule that is not spliced, and in place of a child with a spliced
rule stand the leaves of that rule. The leaves that are found in a chart stand for those of
the chosen tree, in the same order.

## Main definitions

- `Tree.leaves`, `Tree.leavesFrom` — the leaves of a tree, and those of the trees that a rule
  keeps.
- `Evaluation.Uniform` — a computation comes to the same, whatever was noted before.

## Main statements

- `Tree.arguments_eq_mapM` — what a tree gives to a rule is the values of its leaves.
- `Recognition.Ended.forall₂_leaves` — leaves in the chart stand for leaves of the tree.
-/

namespace Scannerless

open Text

/-! ### Leaves -/

/-- Whether a rule of a table hands the values of its children on. -/
def RuleTable.isSplice (t : RuleTable) (id : RuleId) : Bool :=
  (t.rule? id).any Rule.isSplice

theorem RuleTable.isSplice_eq {t : RuleTable} {id : RuleId} {rule : Rule}
    (h : t.rule? id = some rule) : t.isSplice id = rule.isSplice := by
  rw [isSplice, h, Option.any_some]

namespace Tree

/-- A property of all trees, from the children to the rule. -/
theorem induct {P : Tree → Prop} (token : ∀ s place start stop, P (.token s place start stop))
    (node : ∀ id origin stop children, (∀ child ∈ children, P child) →
      P (.node id origin stop children)) (tree : Tree) : P tree :=
  @Tree.rec P (fun ts => ∀ tree ∈ ts, P tree) token node (fun _ h => absurd h List.not_mem_nil)
    (fun _ _ hfirst hrest => List.forall_mem_cons.mpr ⟨hfirst, hrest⟩) tree

mutual

/-- The leaves of a tree: itself, or in place of a spliced rule the leaves of the trees that
    the rule keeps. -/
def leaves (t : RuleTable) : Tree → List Tree
  | .token s place start stop => [.token s place start stop]
  | .node id origin stop children =>
    match t.rule? id with
    | none => [.node id origin stop children]
    | some rule =>
      if rule.isSplice then leavesFrom t rule 0 children else [.node id origin stop children]

/-- The leaves of the trees that a rule keeps, from a place of its right side on. -/
def leavesFrom (t : RuleTable) (rule : Rule) : (place : Nat) → List Tree → List Tree
  | _, [] => []
  | place, child :: children =>
    (if rule.keeps place then leaves t child else []) ++ leavesFrom t rule (place + 1) children

end

/-- A tree that is its own leaf: a token, or one with a rule on top that is not spliced. -/
inductive IsLeaf (t : RuleTable) : Tree → Prop where
  | token (s : SymbolId) (place start stop : Nat) : IsLeaf t (.token s place start stop)
  | node {id : RuleId} (origin stop : Nat) (children : List Tree) (h : t.isSplice id = false) :
      IsLeaf t (.node id origin stop children)

section

variable {t : RuleTable} {id : RuleId} {rule : Rule} {place origin stop : Nat}
  {children ts : List Tree} {child leaf tree : Tree}

theorem leaves_of_isSplice (hrule : t.rule? id = some rule) (hsplice : rule.isSplice = true) :
    (Tree.node id origin stop children).leaves t = leavesFrom t rule 0 children := by
  rw [leaves, hrule]
  exact if_pos hsplice

theorem IsLeaf.leaves_eq (h : tree.IsLeaf t) : tree.leaves t = [tree] := by
  cases h with
  | token => rw [leaves]
  | @node id _ _ _ h =>
    rw [leaves]
    cases hrule : t.rule? id with
    | none => rfl
    | some rule =>
      rw [RuleTable.isSplice_eq hrule] at h
      simp [h]

/-- A property of all trees, from leaves up the spliced rules. -/
theorem splice_induct {P : Tree → Prop} (t : RuleTable) (leaf : ∀ tree, tree.IsLeaf t → P tree)
    (splice : ∀ id origin stop children rule, t.rule? id = some rule → rule.isSplice = true →
      (∀ child ∈ children, P child) → P (.node id origin stop children))
    (tree : Tree) : P tree := by
  induction tree using Tree.induct with
  | token s place start stop => exact leaf _ (.token s place start stop)
  | node id origin stop children ih =>
    cases hrule : t.rule? id with
    | none => exact leaf _ (.node origin stop children (by rw [RuleTable.isSplice, hrule]; rfl))
    | some rule =>
      cases hsplice : rule.isSplice with
      | false =>
        exact leaf _ (.node origin stop children (by rw [RuleTable.isSplice_eq hrule, hsplice]))
      | true => exact splice id origin stop children rule hrule hsplice ih

theorem leavesFrom_concat (t : RuleTable) (rule : Rule) (place : Nat) (ts : List Tree)
    (tree : Tree) :
    leavesFrom t rule place (ts ++ [tree]) =
      leavesFrom t rule place ts ++
        if rule.keeps (place + ts.length) then leaves t tree else [] := by
  induction ts generalizing place with
  | nil => simp [leavesFrom]
  | cons x ts ih =>
    rw [List.cons_append, leavesFrom, ih, leavesFrom]
    simp [Nat.add_assoc, Nat.add_comm 1]

/-- The leaves of a rule that keeps everything are those of its trees. -/
theorem leavesFrom_eq_flatMap (h : ∀ k, place ≤ k → k < place + ts.length → rule.keeps k = true) :
    leavesFrom t rule place ts = ts.flatMap (leaves t) := by
  induction ts generalizing place with
  | nil => rfl
  | cons x ts ih =>
    have hfirst := h place (Nat.le_refl _) (by simp)
    rw [leavesFrom, if_pos hfirst, List.flatMap_cons, ih]
    intro k hle hlt
    rw [List.length_cons] at h
    exact h k (by omega) (by omega)

/-- A leaf of trees that a rule keeps is a leaf of one of them. -/
theorem exists_of_mem_leavesFrom (h : leaf ∈ leavesFrom t rule place ts) :
    ∃ k tree, ts[k]? = some tree ∧ rule.keeps (place + k) = true ∧ leaf ∈ tree.leaves t := by
  induction ts generalizing place with
  | nil => simp [leavesFrom] at h
  | cons x ts ih =>
    rw [leavesFrom, List.mem_append] at h
    rcases h with h | h
    · cases hkeeps : rule.keeps place with
      | true =>
        rw [if_pos hkeeps] at h
        exact ⟨0, x, rfl, hkeeps, h⟩
      | false => simp [hkeeps] at h
    · obtain ⟨k, tree, htree, hkeeps, hleaf⟩ := ih h
      exact ⟨k + 1, tree, htree, by rwa [Nat.add_assoc, Nat.add_comm 1] at hkeeps, hleaf⟩

/-- Leaves are their own leaves, and no rule above them drops them. -/
theorem isLeaf_of_mem_leaves (h : leaf ∈ tree.leaves t) : leaf.IsLeaf t ∧ tree.KeptIn t leaf := by
  induction tree using splice_induct t with
  | leaf tree hleaf =>
    rw [hleaf.leaves_eq, List.mem_singleton] at h
    subst h
    exact ⟨hleaf, .refl⟩
  | splice id origin stop children rule hrule hsplice ih =>
    rw [leaves_of_isSplice hrule hsplice] at h
    obtain ⟨k, child, hchild, hkeeps, hleaf⟩ := exists_of_mem_leavesFrom h
    rw [Nat.zero_add] at hkeeps
    obtain ⟨hisLeaf, hkept⟩ := ih child (List.mem_of_getElem? hchild) hleaf
    exact ⟨hisLeaf, .head (.child hrule hkeeps hchild) hkept⟩

end

end Tree

/-! ### What was noted before does not matter -/

namespace Evaluation

variable {V α β : Type} {x : Evaluation V α} {f : α → Evaluation V β}

/-- A computation comes to the same, whatever was noted before. -/
def Uniform (x : Evaluation V α) : Prop :=
  ∀ events events', (x.runFrom events).1 = (x.runFrom events').1

theorem Uniform.pure (a : α) : Uniform (Pure.pure a : Evaluation V α) :=
  fun _ _ => rfl

theorem Uniform.throw (e : RunError) : Uniform (throw e : Evaluation V α) :=
  fun _ _ => rfl

theorem Uniform.bind (hx : Uniform x) (hf : ∀ a, Uniform (f a)) : Uniform (x >>= f) := by
  intro events events'
  have hsame := hx events events'
  rw [runFrom_bind, runFrom_bind]
  cases hrun : x.runFrom events with
  | mk result noted =>
    cases hrun' : x.runFrom events' with
    | mk result' noted' =>
      rw [hrun, hrun'] at hsame
      obtain rfl : result = result' := hsame
      cases result with
      | error e => rfl
      | ok a => exact hf a noted noted'

/-- A value that a computation has once it always has. -/
theorem Uniform.gives (hx : Uniform x) {events : Array (ValueEvent V)} {a : α}
    (h : (x.runFrom events).1 = .ok a) : x.Gives a := by
  intro events'
  have hsame := (hx events' events).trans h
  exact ⟨_, Prod.ext hsame rfl⟩

theorem runFrom_mapM_concat {g : α → Evaluation V β} {xs : List α} {x : α} {vs : List β} {v : β}
    {events events' events'' : Array (ValueEvent V)}
    (hxs : (xs.mapM g).runFrom events = (.ok vs, events'))
    (hx : (g x).runFrom events' = (.ok v, events'')) :
    ((xs ++ [x]).mapM g).runFrom events = (.ok (vs ++ [v]), events'') := by
  rw [List.mapM_append, runFrom_bind, hxs]
  simp only [List.mapM_cons, List.mapM_nil, bind_assoc, pure_bind, runFrom_bind, hx]
  rfl

/-- One computation for each element of a list, all of which have a value. -/
theorem forall₂_gives_of_mapM {g : α → Evaluation V β} (hg : ∀ a, Uniform (g a)) {xs : List α}
    {vs : List β} {events events' : Array (ValueEvent V)}
    (h : (xs.mapM g).runFrom events = (.ok vs, events')) :
    List.Forall₂ (fun x v => (g x).Gives v) xs vs := by
  induction xs generalizing vs events events' with
  | nil =>
    obtain rfl : [] = vs := Except.ok.inj (congrArg Prod.fst h)
    exact .nil
  | cons x xs ih =>
    rw [List.mapM_cons, runFrom_bind] at h
    cases hfirst : (g x).runFrom events with
    | mk result noted =>
      rw [hfirst] at h
      cases result with
      | error e => cases congrArg Prod.fst h
      | ok v =>
        simp only [runFrom_bind] at h
        cases hrest : (xs.mapM g).runFrom noted with
        | mk result' noted' =>
          rw [hrest] at h
          cases result' with
          | error e => cases congrArg Prod.fst h
          | ok ws =>
            obtain rfl : v :: ws = vs := Except.ok.inj (congrArg Prod.fst h)
            exact .cons ((hg x).gives (by rw [hfirst])) (ih hrest)

end Evaluation

section

variable {V : Type} [Semantic V] {r : Recognition} {actions : Registry V}

theorem Recognition.uniform_apply (r : Recognition) (actions : Registry V) (rule : Rule)
    (origin stop : Nat) (arguments : List V) :
    (r.apply actions rule origin stop arguments).Uniform := by
  intro events events'
  rw [runFrom_apply, runFrom_apply]
  simp only
  cases applyRule actions _ arguments <;> rfl

namespace Tree

/-- The value of a rule that is not spliced is the only one that it gives. -/
theorem IsLeaf.single {tree : Tree} (h : tree.IsLeaf r.grammar.structural) :
    tree.Single r actions := by
  cases h with
  | token => simp [Single, evaluate, arguments]
  | @node id origin stop children h =>
    cases hrule : r.grammar.structural.rule? id with
    | none => simp [Single, evaluate, arguments, hrule]
    | some rule =>
      rw [RuleTable.isSplice_eq hrule] at h
      simp [Single, evaluate, arguments, hrule, h]

/-- What the trees that a rule keeps give is the values of their leaves, if this is so for
    each of them. -/
theorem argumentsFrom_eq_mapM_leavesFrom {rule : Rule} {place : Nat} {ts : List Tree}
    (h : ∀ tree ∈ ts, tree.arguments r actions =
      (tree.leaves r.grammar.structural).mapM (evaluate r actions)) :
    argumentsFrom r actions rule place ts =
      (leavesFrom r.grammar.structural rule place ts).mapM (evaluate r actions) := by
  induction ts generalizing place with
  | nil => rfl
  | cons tree ts ih =>
    rw [List.forall_mem_cons] at h
    rw [argumentsFrom, leavesFrom, List.mapM_append, ih h.2]
    congr 1
    split
    · exact h.1
    · rfl

/-- What a tree gives to a rule is the values of its leaves, from left to right. -/
theorem arguments_eq_mapM (tree : Tree) :
    tree.arguments r actions =
      (tree.leaves r.grammar.structural).mapM (evaluate r actions) := by
  induction tree using splice_induct r.grammar.structural with
  | leaf tree hleaf =>
    rw [hleaf.leaves_eq, hleaf.single]
    simp
  | splice id origin stop children rule hrule hsplice ih =>
    rw [leaves_of_isSplice hrule hsplice, ← argumentsFrom_eq_mapM_leavesFrom ih]
    simp [arguments, hrule, hsplice]

/-- The arguments of a rule are the values of its leaves, from left to right. -/
theorem argumentsFrom_eq_leavesFrom (rule : Rule) (place : Nat) (ts : List Tree) :
    argumentsFrom r actions rule place ts =
      (leavesFrom r.grammar.structural rule place ts).mapM (evaluate r actions) :=
  argumentsFrom_eq_mapM_leavesFrom fun tree _ => tree.arguments_eq_mapM

theorem uniform_arguments (tree : Tree) : (tree.arguments r actions).Uniform := by
  have hall {rule : Rule} {ts : List Tree} (h : ∀ tree ∈ ts, (tree.arguments r actions).Uniform)
      (place : Nat) : (argumentsFrom r actions rule place ts).Uniform := by
    induction ts generalizing place with
    | nil => exact .pure _
    | cons tree ts ih =>
      rw [List.forall_mem_cons] at h
      rw [argumentsFrom]
      refine .bind ?_ fun _ => .bind (ih h.2 _) fun _ => .pure _
      split
      · exact h.1
      · exact .pure _
  induction tree using Tree.induct with
  | token s place start stop => exact fun _ _ => rfl
  | node id origin stop children ih =>
    rw [arguments]
    cases r.grammar.structural.rule? id with
    | none => exact .throw _
    | some rule =>
      refine .bind (hall ih 0) fun arguments => ?_
      split
      · exact .pure _
      · exact .bind (r.uniform_apply actions rule origin stop arguments) fun _ => .pure _

theorem uniform_evaluate (tree : Tree) : (tree.evaluate r actions).Uniform := by
  rw [evaluate]
  refine .bind tree.uniform_arguments fun vs => ?_
  split
  · exact .pure _
  · exact .throw _

end Tree

end

/-! ### Leaves in the chart -/

namespace Recognition

variable {r : Recognition} {ref : ItemRef} {it : Item} {rule : Rule} {child : Child}
  {tree : Tree} {children : List Child} {ts xs ys : List Tree} {ps qs : List Pending}

/-- What children are expanded to stands for trees. -/
def ExpandsTo (r : Recognition) (ps : List Pending) (xs : List Tree) : Prop :=
  ∃ found, r.Expands ps found ∧ List.Forall₂ r.Stands found xs

theorem ExpandsTo.nil : r.ExpandsTo [] [] :=
  ⟨[], .nil, .nil⟩

theorem ExpandsTo.append (hp : r.ExpandsTo ps xs) (hq : r.ExpandsTo qs ys) :
    r.ExpandsTo (ps ++ qs) (xs ++ ys) := by
  obtain ⟨found, hfound, hxs⟩ := hp
  obtain ⟨more, hmore, hys⟩ := hq
  exact ⟨found ++ more, hfound.append hmore, List.rel_append hxs hys⟩

theorem ExpandsTo.emit (h : r.Stands child tree) : r.ExpandsTo [.emit child] [tree] :=
  ⟨[child], .emit child, .cons h .nil⟩

/-- The child of an item stands for its tree, and for the leaves of the tree once it is
    expanded. -/
theorem ExpandsTo.pendingFor_node (hit : r.run.chart.item? ref = some it)
    (hrule : r.grammar.structural.rule? it.rule = some rule)
    (hcomplete : r.grammar.structural.next? it = none) (hts : r.Follows ref ts)
    (h : r.ExpandsTo ((r.children ref).map r.pendingFor)
      (Tree.leavesFrom r.grammar.structural rule 0 ts)) :
    r.ExpandsTo [r.pendingFor (.node ref)]
      ((Tree.node it.rule it.origin ref.set ts).leaves r.grammar.structural) := by
  have hsplice := isSplice_eq hit hrule
  cases hcases : rule.isSplice with
  | true =>
    rw [hcases] at hsplice
    obtain ⟨found, hfound, hstands⟩ := h
    rw [pendingFor, if_pos hsplice, Tree.leaves_of_isSplice hrule hcases]
    exact ⟨found, hfound.expand, hstands⟩
  | false =>
    have hleaf : (Tree.node it.rule it.origin ref.set ts).IsLeaf r.grammar.structural :=
      .node _ _ _ (by rw [RuleTable.isSplice_eq hrule, hcases])
    rw [hcases] at hsplice
    rw [pendingFor, hsplice, hleaf.leaves_eq]
    exact .emit (.node hit hcomplete hts)

/-- The children that a rule keeps are expanded to its leaves: those up to the dot of an
    item, whose trees are known. -/
def LeadsTo (r : Recognition) (ref : ItemRef) (it : Item) (rule : Rule) (ts : List Tree) : Prop :=
  ts.length = it.dot ∧ ∃ children,
    (∀ found, r.childrenFrom rule it.dot ref found = children ++ found) ∧
      r.ExpandsTo (children.map r.pendingFor) (Tree.leavesFrom r.grammar.structural rule 0 ts)

/-- One more child of a rule. -/
theorem LeadsTo.concat {src : Source} {w : Item}
    (hit : r.run.chart.item? ref = some w.advanced) (hchosen : r.chosen? ref = some src)
    (h : r.LeadsTo src.item w rule ts)
    (hchild : r.ExpandsTo [r.pendingFor (Recognition.child ref.set src)]
      (tree.leaves r.grammar.structural)) :
    r.LeadsTo ref w.advanced rule (ts ++ [tree]) := by
  obtain ⟨hlength, children, hchildren, hexpands⟩ := h
  -- Children are found from the last one to the first, so that the last one is added first.
  have hnext (found : List Child) : r.childrenFrom rule (w.dot + 1) ref found = _ :=
    childrenFrom_succ hit hchosen w.dot found
  refine ⟨by simp [hlength, Item.advanced], ?_⟩
  rw [Tree.leavesFrom_concat, Nat.zero_add, hlength]
  cases hkeeps : rule.keeps w.dot with
  | true =>
    refine ⟨children ++ [Recognition.child ref.set src], fun found => ?_, ?_⟩
    · rw [Item.advanced, hnext, Item.advanced, Nat.add_sub_cancel, if_pos hkeeps, hchildren,
        List.append_assoc]
      rfl
    · rw [List.map_append]
      exact hexpands.append hchild
  | false =>
    refine ⟨children, fun found => ?_, ?_⟩
    · rw [Item.advanced, hnext, Item.advanced, Nat.add_sub_cancel, if_neg (by simp [hkeeps]),
        hchildren]
    · simpa using hexpands

/-- The induction is on how the trees were read. -/
theorem Ended.leadsTo (hr : r.Ended) (h : r.Follows ref ts)
    (hit : r.run.chart.item? ref = some it) (rule : Rule) : r.LeadsTo ref it rule ts := by
  induction h generalizing it rule with
  | predicted hit' hdot =>
    obtain rfl := Option.some_inj.mp (hit'.symm.trans hit)
    refine ⟨hdot.symm, [], fun found => ?_, .nil⟩
    rw [hdot, childrenFrom, List.nil_append]
  | @completed ref source trigger _ child ts us hit' hchosen hchild hts hus ihts ihus =>
    obtain rfl := Option.some_inj.mp (hit'.symm.trans hit)
    obtain ⟨w, rfl⟩ := hr.exists_eq_advanced hit hchosen
    rcases hr.chosen?_cases hit hchosen with ⟨_, _, hsrc, hw, hover, -⟩ | ⟨_, hsrc, -⟩
    · cases hsrc
      obtain ⟨s, id, hs, -, hlhs, hchild'⟩ := hover
      obtain rfl := Option.some_inj.mp (hchild.symm.trans hchild')
      obtain ⟨rule', hrule', -⟩ := Option.map_eq_some_iff.mp hlhs
      obtain ⟨-, children, hchildren, hexpands⟩ := ihus hchild rule'
      have heq : r.children trigger = children := by
        rw [children_eq hchild hrule', hchildren, List.append_nil]
      rw [← heq] at hexpands
      exact (ihts hw rule).concat hit hchosen (.pendingFor_node hchild hrule'
        (RuleTable.next?_eq_none_iff.mpr (Nat.le_refl _)) hus hexpands)
    · cases hsrc
  | @scanned ref source start _ w s ts hit' hchosen hw hs hts ihts =>
    obtain rfl := Option.some_inj.mp (hit'.symm.trans hit)
    obtain ⟨w', rfl⟩ := hr.exists_eq_advanced hit hchosen
    rcases hr.chosen?_cases hit hchosen with ⟨_, _, hsrc, -⟩ | ⟨_, hsrc, hw', -⟩
    · cases hsrc
    · cases hsrc
      refine (ihts hw' rule).concat hit hchosen ?_
      rw [Tree.leaves]
      exact .emit (.lexeme _ _ _ _)

/-- The leaves of an item stand for those of its rule in the chosen tree. -/
theorem Ended.forall₂_leaves (hr : r.Ended) (hit : r.run.chart.item? ref = some it)
    (hts : r.Follows ref ts) (hrule : r.grammar.structural.rule? it.rule = some rule) :
    List.Forall₂ r.Stands (r.leaves ref) (Tree.leavesFrom r.grammar.structural rule 0 ts) := by
  obtain ⟨-, children, hchildren, found, hfound, hstands⟩ := hr.leadsTo hts hit rule
  have heq : r.children ref = children := by
    rw [children_eq hit hrule, hchildren, List.append_nil]
  rw [← heq] at hfound
  rwa [hfound.expand.leaves_eq]

end Recognition

end Scannerless
