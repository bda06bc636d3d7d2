import Scannerless.Proofs.Calculator.Making
import Scannerless.Proofs.Evaluation.Strict

/-!
# The actions of the calculator

A registry realizes the productions along a map from expressions if its actions do the same to what
the map takes values to. Three registries do: the actions that build expressions, the actions of the
calculator, along the values of expressions, and strict ones, which have no result if they look for
an argument that is not there.

## Main definitions

- `Calculator.Realizes` — actions do along a map what productions do.
- `Calculator.building` — the actions that build expressions.
- `Calculator.Strict.actions` — the actions of the calculator, each with the arguments it looks at.

## Main statements

- `Calculator.realizes_building`, `realizes_actions`, `realizes_strict`.
- `Calculator.Strict.confirms_actions` — results of strict actions are those of the calculator's.
-/

namespace Scannerless.Calculator

/-! ### Realizing productions -/

section

variable {V : Type} [Semantic V] {actions : Registry V} {φ : Syntax → V}

/-- Actions do along a map what productions do. -/
structure Realizes (actions : Registry V) (φ : Syntax → V) : Prop where
  token : ∀ text, φ (.word text) = Semantic.ofLexeme text
  action : ∀ name values e, Makes (.apply (some (.named name))) values e →
    ∃ f, actions.find? name = some f ∧ ∀ c, f c (values.map φ) = φ (.expr e)

/-- An expression that was not handed on was made by an action. -/
theorem Makes.exists_action {semantics : Semantics} {values : List Syntax} {e : Expr}
    (h : Makes semantics values e) (hsplice : semantics ≠ .splice) :
    ∃ name, semantics = .apply (some (.named name)) := by
  cases h with
  | ascent => exact absurd rfl hsplice
  | _ => exact ⟨_, rfl⟩

/-- What a rule comes to is what the map takes its expression to. -/
theorem Realizes.applyRule_eq (h : Realizes actions φ) {c : RuleContext} {values : List Syntax}
    {e : Expr} (hmakes : Makes c.rule.semantics values e) (hsplice : c.rule.isSplice = false) :
    applyRule actions c (values.map φ) = .ok (φ (.expr e)) := by
  obtain ⟨name, hname⟩ := hmakes.exists_action (ne_of_beq_false hsplice)
  rw [hname] at hmakes
  obtain ⟨f, hf, hvalue⟩ := h.action name values e hmakes
  simp only [applyRule, Grammar.actionOf, hname, hf, hvalue]

end

/-! ### Building expressions -/

instance : Semantic Syntax where
  ofLexeme := .word
  undefined := .word ""
  ofList _ := .word ""

def buildNumber : List Syntax → Syntax
  | [.word text] => .expr (.number text)
  | _ => .word ""

def buildGroup : List Syntax → Syntax
  | [_, .expr e, _] => .expr (.group e)
  | _ => .word ""

def buildCall : List Syntax → Syntax
  | [.word name, _, .expr e, _] => .expr (.call name e)
  | _ => .word ""

def buildNegation : List Syntax → Syntax
  | [_, .expr e] => .expr (.negate e)
  | _ => .word ""

def buildBinary (op : Operator) : List Syntax → Syntax
  | [.expr a, _, .expr b] => .expr (.binary op a b)
  | _ => .word ""

/-- The actions that build expressions. -/
def building : Registry Syntax :=
  ⟨[("num", fun _ => buildNumber), ("parens", fun _ => buildGroup), ("call", fun _ => buildCall),
      ("neg", fun _ => buildNegation)] ++
    Operator.all.map fun op => (op.action, fun _ => buildBinary op)⟩

theorem realizes_building : Realizes building id where
  token _ := rfl
  action name values e h := by
    cases h with
    | binary op a b => cases op <;> exact ⟨_, rfl, fun _ => rfl⟩
    | _ => exact ⟨_, rfl, fun _ => rfl⟩

/-! ### Values -/

/-- The value of a word or an expression. -/
def Syntax.value : Syntax → Value
  | word text => .text text
  | expr e => e.value

theorem Expr.value_call (name : String) (e : Expr) : (Expr.call name e).value =
    ((function? name).map fun f => .float (f (operand e.value))).getD .undefined := by
  rw [value]
  cases function? name <;> rfl

/-- A function is looked for by the first argument and gets the third one. -/
theorem call_eq (arguments : List Value) : call arguments =
    (((Recipe.arg arguments 0).asText?.bind function?).map fun f =>
      Value.float (f (Recipe.float arguments 2))).getD .undefined := by
  rw [call]
  generalize (Recipe.arg arguments 0).asText? = name?
  split
  case h_7 hsqrt hsin hcos hexp hln habs =>
    cases name? with
    | none => rfl
    | some name =>
      rw [Option.bind_some, function?]
      exacts [rfl, fun h => hsqrt (congrArg some h), fun h => hsin (congrArg some h),
        fun h => hcos (congrArg some h), fun h => hexp (congrArg some h),
        fun h => hln (congrArg some h), fun h => habs (congrArg some h)]
  all_goals rfl

theorem realizes_actions : Realizes actions Syntax.value where
  token _ := rfl
  action name values e h := by
    cases h with
    | binary op a b => cases op <;> exact ⟨_, rfl, fun _ => rfl⟩
    | call name e => exact ⟨_, rfl, fun _ => (call_eq _).trans (e.value_call name).symm⟩
    | _ => exact ⟨_, rfl, fun _ => rfl⟩

/-! ### Strict actions -/

namespace Strict

open Scannerless.Strict

/-- An argument, whatever its value is. -/
def argument (place : Nat) : Arguments Value Value :=
  look place some

def number : Arguments Value Value := do
  let x ← argument 0
  return .float (operand x)

def call : Arguments Value Value := do
  let x ← argument 2
  let name ← argument 0
  return ((name.asText?.bind function?).map fun f => .float (f (operand x))).getD .undefined

def negation : Arguments Value Value := do
  let x ← argument 1
  return .float (-operand x)

def binary (op : Operator) : Arguments Value Value := do
  let x ← argument 0
  let y ← argument 2
  return .float (op.apply (operand x) (operand y))

/-- The actions of the calculator, each with the arguments it looks at. -/
def actions : Registry (Option Value) :=
  ⟨[("rem", applied fun _ => binary .modulo), ("call", applied fun _ => call),
    ("sub", applied fun _ => binary .minus), ("add", applied fun _ => binary .plus),
    ("div", applied fun _ => binary .divide), ("mul", applied fun _ => binary .times),
    ("neg", applied fun _ => negation), ("pow", applied fun _ => binary .power),
    ("parens", applied fun _ => take 1 some), ("num", applied fun _ => number)]⟩

theorem argument_bind {α : Type} (place : Nat) (k : Value → Arguments Value α)
    (values : List Value) :
    (argument place >>= k).run' values = values[place]?.bind fun x => (k x).run' values := by
  have hrun : argument place values = values[place]?.map fun x => (x, values) := by
    rw [argument, look]
    cases values[place]? <;> rfl
  show Option.map Prod.fst (argument place values >>= fun found => k found.1 found.2) = _
  rw [hrun]
  cases values[place]? <;> rfl

theorem arg_of_getElem? {values : List Value} {place : Nat} {x : Value}
    (h : values[place]? = some x) : Recipe.arg values place = x := by
  rw [Recipe.arg, List.getD_eq_getElem?_getD, h, Option.getD_some]

theorem float_of_getElem? {values : List Value} {place : Nat} {x : Value}
    (h : values[place]? = some x) : Recipe.float values place = operand x := by
  rw [Recipe.float, arg_of_getElem? h]
  rfl

/-- A result of a strict action is that of another one if this looks at the same arguments. -/
theorem confirms_of_run {action : Arguments Value Value} {g : RuleContext → List Value → Value}
    (h : ∀ c values value, action.run' values = some value → g c values = value) :
    Confirms (applied fun _ => action) g :=
  fun c values value hvalue => h c values value ((applied_some _ c values).symm.trans hvalue)

theorem confirms_number : Confirms (applied fun _ => number)
    (fun c arguments => Recipe.number.apply "num" c arguments) := by
  refine confirms_of_run fun c values value h => ?_
  rw [number, argument_bind] at h
  obtain ⟨x, hx, hvalue⟩ := Option.bind_eq_some_iff.mp h
  obtain rfl := Option.some_inj.mp hvalue
  exact congrArg Value.float (float_of_getElem? hx)

theorem confirms_negation : Confirms (applied fun _ => negation)
    (fun c arguments => Recipe.negate.apply "neg" c arguments) := by
  refine confirms_of_run fun c values value h => ?_
  rw [negation, argument_bind] at h
  obtain ⟨x, hx, hvalue⟩ := Option.bind_eq_some_iff.mp h
  obtain rfl := Option.some_inj.mp hvalue
  exact congrArg (fun y => Value.float (-y)) (float_of_getElem? hx)

theorem confirms_binary (op : Operator) : Confirms (applied fun _ => binary op)
    (fun _ arguments => Recipe.binary op.apply arguments) := by
  refine confirms_of_run fun c values value h => ?_
  rw [binary, argument_bind] at h
  obtain ⟨x, hx, h⟩ := Option.bind_eq_some_iff.mp h
  rw [argument_bind] at h
  obtain ⟨y, hy, hvalue⟩ := Option.bind_eq_some_iff.mp h
  obtain rfl := Option.some_inj.mp hvalue
  show Value.float _ = _
  rw [float_of_getElem? hx, float_of_getElem? hy]

theorem confirms_call : Confirms (applied fun _ => call)
    (fun _ arguments => Calculator.call arguments) := by
  refine confirms_of_run fun c values value h => ?_
  rw [call, argument_bind] at h
  obtain ⟨x, hx, h⟩ := Option.bind_eq_some_iff.mp h
  rw [argument_bind] at h
  obtain ⟨name, hname, hvalue⟩ := Option.bind_eq_some_iff.mp h
  obtain rfl := Option.some_inj.mp hvalue
  rw [call_eq, arg_of_getElem? hname, float_of_getElem? hx]

theorem confirms_group : Confirms (applied fun _ => take 1 some)
    (fun c arguments => (Recipe.argument 1).apply "parens" c arguments) := by
  refine confirms_of_run fun c values value h => ?_
  have hrun : (take 1 some : Arguments Value Value).run' values = values[1]? := by
    show Option.map Prod.fst (take 1 some values) = _
    rw [take]
    cases values[1]? <;> rfl
  exact arg_of_getElem? (hrun.symm.trans h)

/-- The results of strict actions are those of the calculator's. -/
theorem confirms_actions : actions.Confirms Calculator.actions :=
  .cons ⟨rfl, confirms_binary .modulo⟩ <|
    .cons ⟨rfl, confirms_call⟩ <|
    .cons ⟨rfl, confirms_binary .minus⟩ <|
    .cons ⟨rfl, confirms_binary .plus⟩ <|
    .cons ⟨rfl, confirms_binary .divide⟩ <|
    .cons ⟨rfl, confirms_binary .times⟩ <|
    .cons ⟨rfl, confirms_negation⟩ <|
    .cons ⟨rfl, confirms_binary .power⟩ <|
    .cons ⟨rfl, confirms_group⟩ <|
    .cons ⟨rfl, confirms_number⟩ .nil

end Strict

theorem realizes_strict : Realizes Strict.actions (some ∘ Syntax.value) where
  token _ := rfl
  action name values e h := by
    cases h with
    | binary op a b => cases op <;> exact ⟨_, rfl, fun _ => rfl⟩
    | call name e => exact ⟨_, rfl, fun _ => congrArg some (e.value_call name).symm⟩
    | _ => exact ⟨_, rfl, fun _ => rfl⟩

end Scannerless.Calculator
