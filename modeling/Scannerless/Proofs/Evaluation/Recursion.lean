import Scannerless.Evaluation
import Scannerless.Proofs.Grammar.Coherence

/-!
# Evaluation of trees by recursion

A child that a rule keeps gives values to it: a token gives the value of its text, a child
with a spliced rule gives what its own children give, and any other child its value. The
value of a rule is made of what its children give, from left to right.

## Main definitions

- `Evaluation` — computations that may fail and that take note of the values of rules.
- `Tree.arguments`, `Tree.evaluate` — what a tree gives to a rule, and its value.
- `Tree.actionNames` — the names of the actions in the order they are applied.

## Main statements

- `Evaluation.Yields.bind` — computations one behind the other.
- `Tree.yields_evaluate` — an evaluation fails at the first action that is not bound.
-/

namespace Scannerless

open Text

/-- Computations that may fail and that take note of the values of rules. -/
abbrev Evaluation (V : Type) :=
  ExceptT RunError (StateM (Array (ValueEvent V)))

namespace Evaluation

variable {V α β : Type}

/-- What a computation comes to, some values being noted before. -/
def runFrom (x : Evaluation V α) (events : Array (ValueEvent V)) :
    Except RunError α × Array (ValueEvent V) :=
  x.run.run events

theorem runFrom_bind (x : Evaluation V α) (f : α → Evaluation V β)
    (events : Array (ValueEvent V)) :
    (x >>= f).runFrom events =
      match x.runFrom events with
      | (.ok a, events) => (f a).runFrom events
      | (.error e, events) => (.error e, events) := by
  simp only [runFrom, ExceptT.run_bind, StateT.run_bind]
  cases x.run.run events with
  | mk result events => cases result <;> rfl

end Evaluation

/-! ### Failures -/

/-- The first of some names that no function is bound to. -/
def Registry.firstUnbound {V : Type} (actions : Registry V) (names : List String) : Option String :=
  names.find? fun name => !actions.contains name

/-- A computation that applies the actions of some names fails at the first one that is not
    bound, and has a result with a property if all are. -/
def Evaluation.Yields {V α : Type} (actions : Registry V) (x : Evaluation V α)
    (names : List String) (P : α → Prop) : Prop :=
  ∀ events,
    match (x.runFrom events).1 with
    | .ok a => actions.firstUnbound names = none ∧ P a
    | .error e => ∃ name, actions.firstUnbound names = some name ∧ e = .unboundAction name

namespace Evaluation

variable {V α β : Type} {actions : Registry V}

theorem Yields.pure {a : α} {P : α → Prop} (h : P a) :
    Yields actions (Pure.pure a) [] P :=
  fun _ => ⟨rfl, h⟩

theorem Yields.mono {x : Evaluation V α} {names : List String} {P Q : α → Prop}
    (hx : Yields actions x names P) (h : ∀ a, P a → Q a) : Yields actions x names Q := by
  intro events
  have hresult := hx events
  cases hrun : (x.runFrom events).1 with
  | ok a =>
    rw [hrun] at hresult
    exact ⟨hresult.1, h a hresult.2⟩
  | error e =>
    rw [hrun] at hresult
    exact hresult

theorem Yields.of_ok {x : Evaluation V α} {names : List String} {P : α → Prop}
    (hx : Yields actions x names P) {events : Array (ValueEvent V)} {a : α}
    (ha : (x.runFrom events).1 = .ok a) : P a := by
  have hresult := hx events
  rw [ha] at hresult
  exact hresult.2

/-- The error of a computation names the first action that is not bound. -/
theorem Yields.error_iff {x : Evaluation V α} {names : List String} {P : α → Prop}
    (hx : Yields actions x names P) (events : Array (ValueEvent V)) (e : RunError) :
    (x.runFrom events).1 = .error e ↔
      ∃ name, actions.firstUnbound names = some name ∧ e = .unboundAction name := by
  have hresult := hx events
  cases hrun : (x.runFrom events).1 with
  | ok a =>
    rw [hrun] at hresult
    simp [hresult.1]
  | error e' =>
    rw [hrun] at hresult
    obtain ⟨name, hname, rfl⟩ := hresult
    simp [hname, eq_comm]

/-- Of two computations the second one is only reached if the first one has a result. -/
theorem Yields.bind {x : Evaluation V α} {f : α → Evaluation V β} {names rest : List String}
    {P : α → Prop} {Q : β → Prop} (hx : Yields actions x names P)
    (hf : ∀ a, P a → Yields actions (f a) rest Q) :
    Yields actions (x >>= f) (names ++ rest) Q := by
  intro events
  have hresult := hx events
  rw [runFrom_bind, Registry.firstUnbound, List.find?_append]
  cases hrun : x.runFrom events with
  | mk result events' =>
    rw [hrun] at hresult
    cases result with
    | ok a =>
      obtain ⟨hnone, ha⟩ := hresult
      rw [Registry.firstUnbound] at hnone
      rw [hnone, Option.none_or]
      exact hf a ha events'
    | error e =>
      obtain ⟨name, hname, rfl⟩ := hresult
      rw [Registry.firstUnbound] at hname
      exact ⟨name, by rw [hname, Option.some_or], rfl⟩

end Evaluation

/-! ### Trees -/

section

variable {V : Type} [Semantic V]

/-- The value of a rule over a span, which is noted. -/
def Recognition.apply (r : Recognition) (actions : Registry V) (rule : Rule)
    (origin stop : Nat) (arguments : List V) : Evaluation V V := do
  let context : RuleContext := ⟨r.grammar, r.input, rule, min (r.skip origin) stop, stop⟩
  let value ← MonadExcept.ofExcept (applyRule actions context arguments)
  modify (·.push ⟨context, value⟩)
  return value

/-- The name of the action of a rule, if it is to be bound. -/
def Grammar.actionNamesOf (g : Grammar) (rule : Rule) : List String :=
  match g.actionOf rule with
  | some (.named name) => [name]
  | _ => []

namespace Tree

mutual

/-- The values that a tree gives to a rule that keeps it. -/
def arguments (r : Recognition) (actions : Registry V) : Tree → Evaluation V (List V)
  | .token _ _ start stop => return [Semantic.ofLexeme (r.input.between start stop)]
  | .node id origin stop children =>
    match r.grammar.structural.rule? id with
    | none => throw .incompleteParse
    | some rule => do
      let arguments ← argumentsFrom r actions rule 0 children
      if rule.isSplice then return arguments
      else return [← r.apply actions rule origin stop arguments]

/-- The values that trees give to a rule, from a place of its right side on. -/
def argumentsFrom (r : Recognition) (actions : Registry V) (rule : Rule) :
    (place : Nat) → List Tree → Evaluation V (List V)
  | _, [] => return []
  | place, child :: children => do
    let front ← (if rule.keeps place then arguments r actions child else pure [])
    let back ← argumentsFrom r actions rule (place + 1) children
    return front ++ back

end

/-- The value of a tree. A spliced rule passes its only argument on. -/
def evaluate (r : Recognition) (actions : Registry V) (tree : Tree) : Evaluation V V := do
  match ← tree.arguments r actions with
  | [value] => return value
  | _ => throw .incompleteParse

mutual

/-- The names of the actions of a tree that a rule keeps, children before their rule and
    from left to right. -/
def actionNames (g : Grammar) : Tree → List String
  | .token _ _ _ _ => []
  | .node id _ _ children =>
    match g.structural.rule? id with
    | none => []
    | some rule =>
      actionNamesFrom g rule 0 children ++ if rule.isSplice then [] else g.actionNamesOf rule

/-- The names of the actions of trees, from a place of the right side of a rule on. -/
def actionNamesFrom (g : Grammar) (rule : Rule) : (place : Nat) → List Tree → List String
  | _, [] => []
  | place, child :: children =>
    (if rule.keeps place then actionNames g child else [])
      ++ actionNamesFrom g rule (place + 1) children

end

theorem argumentsFrom_concat (r : Recognition) (actions : Registry V) (rule : Rule)
    (place : Nat) (ts : List Tree) (t : Tree) :
    argumentsFrom r actions rule place (ts ++ [t]) = do
      let front ← argumentsFrom r actions rule place ts
      let back ← (if rule.keeps (place + ts.length) then arguments r actions t else pure [])
      return front ++ back := by
  induction ts generalizing place with
  | nil => simp [argumentsFrom]
  | cons x ts ih =>
    rw [List.cons_append, argumentsFrom, ih, argumentsFrom]
    simp only [bind_assoc, pure_bind, List.append_assoc, List.length_cons, Nat.add_assoc,
      Nat.add_comm 1]

theorem actionNamesFrom_concat (g : Grammar) (rule : Rule) (place : Nat) (ts : List Tree)
    (t : Tree) :
    actionNamesFrom g rule place (ts ++ [t]) =
      actionNamesFrom g rule place ts
        ++ if rule.keeps (place + ts.length) then actionNames g t else [] := by
  induction ts generalizing place with
  | nil => simp [actionNamesFrom]
  | cons x ts ih =>
    rw [List.cons_append, actionNamesFrom, ih, actionNamesFrom]
    simp [Nat.add_assoc, Nat.add_comm 1]

end Tree

theorem Recognition.runFrom_apply (r : Recognition) (actions : Registry V) (rule : Rule)
    (origin stop : Nat) (arguments : List V) (events : Array (ValueEvent V)) :
    (r.apply actions rule origin stop arguments).runFrom events =
      let context : RuleContext := ⟨r.grammar, r.input, rule, min (r.skip origin) stop, stop⟩
      match applyRule actions context arguments with
      | .ok value => (.ok value, events.push ⟨context, value⟩)
      | .error e => (.error e, events) := by
  rw [Recognition.apply, Evaluation.runFrom_bind]
  simp only
  cases applyRule actions _ arguments with
  | error e => rfl
  | ok value => rfl

theorem Recognition.yields_apply (r : Recognition) (actions : Registry V) (rule : Rule)
    (origin stop : Nat) (arguments : List V) :
    Evaluation.Yields actions (r.apply actions rule origin stop arguments)
      (r.grammar.actionNamesOf rule) fun _ => True := by
  intro events
  rw [Recognition.apply, Evaluation.runFrom_bind, applyRule, Grammar.actionNamesOf]
  simp only
  cases r.grammar.actionOf rule with
  | none => exact ⟨rfl, trivial⟩
  | some action =>
    cases action with
    | first | undefined | array => exact ⟨rfl, trivial⟩
    | named name =>
      simp only
      cases hname : actions.find? name with
      | none => exact ⟨name, by simp [Registry.firstUnbound, Registry.contains, hname], rfl⟩
      | some f => exact ⟨by simp [Registry.firstUnbound, Registry.contains, hname], trivial⟩

namespace Tree

variable {r : Recognition} {actions : Registry V} {l : Lattice} {tiers : SymbolId → Prop}

/-- What the trees of a list of symbols give to a rule: nothing comes of no symbols, and a
    single value of a symbol whose spliced rules pass single values on. -/
def Passed (tiers : SymbolId → Prop) (rule : Rule) (ss : List SymbolId) (vs : List V) : Prop :=
  (ss = [] → vs = []) ∧ ∀ s, ss = [s] → tiers s → rule.keeps 0 = true → vs.length = 1

theorem yields_concat {rule : Rule} {ss : List SymbolId} {s : SymbolId} {ts : List Tree}
    {t : Tree} (hlength : ts.length = ss.length)
    (hts : Evaluation.Yields actions (argumentsFrom r actions rule 0 ts)
      (actionNamesFrom r.grammar rule 0 ts) (Passed tiers rule ss))
    (ht : Evaluation.Yields actions (t.arguments r actions) (t.actionNames r.grammar)
      fun vs => tiers s → vs.length = 1) :
    Evaluation.Yields actions (argumentsFrom r actions rule 0 (ts ++ [t]))
      (actionNamesFrom r.grammar rule 0 (ts ++ [t])) (Passed tiers rule (ss ++ [s])) := by
  rw [argumentsFrom_concat, actionNamesFrom_concat, Nat.zero_add]
  have hback : Evaluation.Yields actions
      (if rule.keeps ts.length then t.arguments r actions else pure [])
      (if rule.keeps ts.length then t.actionNames r.grammar else [])
      fun vs => rule.keeps ts.length = true → tiers s → vs.length = 1 := by
    by_cases hkeeps : rule.keeps ts.length = true
    · rw [if_pos hkeeps, if_pos hkeeps]
      exact ht.mono fun vs hvs _ => hvs
    · rw [if_neg hkeeps, if_neg hkeeps]
      exact .pure fun h => absurd h hkeeps
  refine hts.bind fun front hfront => ?_
  rw [← List.append_nil (ite _ _ _)]
  refine hback.bind fun back hback => .pure ⟨by simp, fun x hx htier hkeeps => ?_⟩
  -- The last of one symbol is the first one.
  have hnil : ss = [] := by
    have hlen := congrArg List.length hx
    simpa using hlen
  subst hnil
  obtain rfl : s = x := by simpa using hx
  obtain rfl := hfront.1 rfl
  rw [List.nil_append]
  refine hback ?_ htier
  rwa [hlength]

theorem yields_node {id : RuleId} {rule : Rule} {origin stop : Nat} {children : List Tree}
    (hrule : r.grammar.structural.rule? id = some rule)
    (htiers : r.grammar.structural.PassesOn tiers)
    (h : Evaluation.Yields actions (argumentsFrom r actions rule 0 children)
      (actionNamesFrom r.grammar rule 0 children) (Passed tiers rule rule.rhs)) :
    Evaluation.Yields actions ((Tree.node id origin stop children).arguments r actions)
      ((Tree.node id origin stop children).actionNames r.grammar)
      fun vs => tiers rule.lhs → vs.length = 1 := by
  rw [arguments, actionNames, hrule]
  refine h.bind fun vs hvs => ?_
  by_cases hsplice : rule.isSplice = true
  · rw [if_pos hsplice, if_pos hsplice]
    refine .pure fun htier => ?_
    obtain ⟨s, hrhs, hmask, hs⟩ := htiers id rule hrule htier hsplice
    exact hvs.2 s hrhs hs (by rw [Rule.keeps, hmask]; rfl)
  · rw [if_neg hsplice, if_neg hsplice, ← List.append_nil (r.grammar.actionNamesOf rule)]
    exact (r.yields_apply actions rule origin stop vs).bind fun v _ => .pure fun _ => rfl

/-- The trees of a list of symbols fail at the first action that is not bound. -/
theorem yields_argumentsFrom (hi : r.grammar.structural.Indexed)
    (htiers : r.grammar.structural.PassesOn tiers) {ss : List SymbolId} {i j : Nat}
    {ts : List Tree} (h : r.grammar.structural.Reads l ss i j ts) (rule : Rule) :
    Evaluation.Yields actions (argumentsFrom r actions rule 0 ts)
      (actionNamesFrom r.grammar rule 0 ts) (Passed tiers rule ss) := by
  induction h generalizing rule with
  | nil => exact .pure ⟨fun _ => rfl, by simp⟩
  | token hss _ _ ih => exact yields_concat hss.length_eq (ih rule) (.pure fun _ => rfl)
  | @node ss i k j ts us s id hss hid _ ihss ihus =>
    obtain ⟨rule', hrule, rfl⟩ := Option.map_eq_some_iff.mp ((hi s id).mp hid)
    refine yields_concat hss.length_eq (ihss rule) (yields_node hrule htiers ?_)
    have hrhs : r.grammar.structural.rhs id = rule'.rhs := RuleTable.rhs_of_rule? hrule
    rw [← hrhs]
    exact ihus rule'

/-- The evaluation of a tree of the start symbol fails at the first action that is not
    bound, and has a value if all are. -/
theorem yields_evaluate (hi : r.grammar.structural.Indexed)
    (htiers : r.grammar.structural.PassesOn tiers) {id : RuleId} {s : SymbolId} {i j : Nat}
    {ts : List Tree} (hid : r.grammar.structural.lhs? id = some s) (hs : tiers s)
    (h : r.grammar.structural.Reads l (r.grammar.structural.rhs id) i j ts) :
    Evaluation.Yields actions ((Tree.node id i j ts).evaluate r actions)
      ((Tree.node id i j ts).actionNames r.grammar) fun _ => True := by
  obtain ⟨rule, hrule, rfl⟩ := Option.map_eq_some_iff.mp hid
  have hrhs : r.grammar.structural.rhs id = rule.rhs := RuleTable.rhs_of_rule? hrule
  rw [hrhs] at h
  rw [evaluate, ← List.append_nil (actionNames _ _)]
  refine (yields_node hrule htiers (yields_argumentsFrom hi htiers h rule)).bind fun vs hvs => ?_
  obtain ⟨v, rfl⟩ := List.length_eq_one_iff.mp (hvs hs)
  exact .pure trivial

end Tree

end

end Scannerless
