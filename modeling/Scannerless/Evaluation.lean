import Scannerless.Forest
import Scannerless.Registry

/-!
# Evaluation

The chosen reading of an input is evaluated with the actions that a parser binds.
A machine has a stack of tasks and a stack of values. To visit the rule of an item
is to visit its leaves from left to right and to reduce their values to that of the
rule. The machine comes to its end when no task is left, or when an action is not
bound.

## Main definitions

- `Semantic` — what evaluation needs of values.
- `Recognition.reduce` — the value of a rule.
- `Machine.step` — does a task.
- `Recognition.evaluate` — the value of a recognized input.
-/

namespace Scannerless

open Text

/-- What evaluation needs of values: the value of a token, a neutral value and
    the value of a list. -/
class Semantic (V : Type) where
  ofLexeme : String → V
  undefined : V
  ofList : List V → V

/-- What is left to do. -/
inductive Task where
  /-- The rule of an item is to be evaluated. -/
  | visit (item : ItemRef)
  /-- The value of a token is to be put onto the stack. -/
  | lexeme (start stop : Nat)
  /-- The topmost `count` values are to be replaced by the value of the rule of an
      item. -/
  | reduce (item : ItemRef) (count : Nat)
  deriving DecidableEq, Repr

def Child.task : Child → Task
  | .lexeme start stop => .lexeme start stop
  | .node item => .visit item

/-- A value with the place where it was computed. -/
structure ValueEvent (V : Type) where
  context : RuleContext
  value : V

section

variable {V : Type} [Semantic V]

/-- A single value as it is, and several as a list. -/
def collapse : List V → V
  | [v] => v
  | vs => Semantic.ofList vs

def Recognition.context (r : Recognition) (ref : ItemRef) (item : Item) (rule : Rule) :
    RuleContext :=
  ⟨r.grammar, r.input, rule, min (r.skip item.origin) ref.set, ref.set⟩

/-- The value of a rule whose action is not bound to a function: tokens alone
    are their own value. -/
def defaultValue (c : RuleContext) (arguments : List V) : V :=
  if !c.rule.rhs.isEmpty && c.rule.rhs.all c.grammar.isLexeme then collapse arguments
  else Semantic.undefined

/-- The action of a rule: its own or the default of the grammar. -/
def Grammar.actionOf (g : Grammar) (rule : Rule) : Option Action :=
  match rule.semantics with
  | .apply (some action) => some action
  | _ => g.defaultAction

def applyRule (actions : Registry V) (c : RuleContext) (arguments : List V) :
    Except RunError V :=
  match c.grammar.actionOf c.rule with
  | some (.named name) =>
    match actions.find? name with
    | some f => .ok (f c arguments)
    | none => .error (.unboundAction name)
  | some .first => .ok (arguments.headD Semantic.undefined)
  | some .undefined => .ok Semantic.undefined
  | some .array => .ok (Semantic.ofList arguments)
  | none => .ok (defaultValue c arguments)

/-- The value of a complete item from its arguments, and where its rule applies.
    A spliced rule has no action and passes its arguments on. -/
def Recognition.reduce (r : Recognition) (actions : Registry V) (ref : ItemRef)
    (arguments : List V) : Except RunError (V × Option RuleContext) :=
  match r.entry? ref, r.rule? ref with
  | some e, some rule =>
    if rule.isSplice then .ok (collapse arguments, none)
    else
      let context := r.context ref e.item rule
      (applyRule actions context arguments).map fun value => (value, some context)
  | _, _ => .error .incompleteParse

/-- The machine: its tasks and its values, the topmost first, and the values computed by
    rules so far. -/
structure Machine (V : Type) where
  tasks : List Task
  values : List V
  events : Array (ValueEvent V)

/-- What an evaluation comes to: a value or an error, and the values computed by rules. -/
abbrev Outcome (V : Type) :=
  Except RunError V × Array (ValueEvent V)

instance : Nonempty (Outcome V) :=
  ⟨(.error .incompleteParse, #[])⟩

namespace Machine

def initial (root : ItemRef) : Machine V :=
  ⟨[.visit root], [], #[]⟩

/-- Visits an item: its leaves are put onto the tasks from right to left. -/
def visit (r : Recognition) (item : ItemRef) (rest : List Task) (m : Machine V) : Machine V :=
  let leaves := r.leaves item
  { m with
    tasks :=
      leaves.reverse.foldl (fun tasks leaf => leaf.task :: tasks)
        (.reduce item leaves.length :: rest) }

/-- Replaces the topmost `count` values by one. If it comes with the place of a
    rule, the rule computed it there. -/
def replace (count : Nat) (value : V) (context : Option RuleContext) (rest : List Task)
    (m : Machine V) : Machine V where
  tasks := rest
  values := value :: m.values.drop count
  events :=
    match context with
    | some c => m.events.push ⟨c, value⟩
    | none => m.events

/-- Does the topmost task. -/
def step (r : Recognition) (actions : Registry V) (m : Machine V) : Machine V ⊕ Outcome V :=
  match m.tasks with
  | [] =>
    match m.values with
    | [] => .inr (.error .incompleteParse, m.events)
    | value :: _ => .inr (.ok value, m.events)
  | .visit item :: rest => .inl (m.visit r item rest)
  | .lexeme start stop :: rest =>
    .inl { m with
      tasks := rest
      values := Semantic.ofLexeme (r.input.between start stop) :: m.values }
  | .reduce item count :: rest =>
    match r.reduce actions item (m.values.take count).reverse with
    | .ok (value, context) => .inl (m.replace count value context rest)
    | .error e => .inr (.error e, m.events)

end Machine

/-- The value of a recognized input, and the values computed by rules on the
    way. -/
def Recognition.evaluate (r : Recognition) (actions : Registry V) : Outcome V :=
  match r.chooseRoot with
  | none => (.error .incompleteParse, #[])
  | some root => loop (Machine.step r actions) (Machine.initial root)

end

end Scannerless
