import Mathlib.Data.List.Forall2
import Scannerless.Evaluation

/-!
# Strict actions

Actions may look for arguments that are not there, and the values of a strict evaluation show
it: a strict action takes its arguments out of a list and has no result unless each of them is at
its place and of the kind that is needed.

## Main definitions

- `Strict.Arguments` — the arguments that are left while an action takes some of them.
- `Strict.applied` — the action that takes its arguments so.
- `Registry.Mirrors` — one registry has strict actions for another one.

## Main statements

- `Registry.Mirrors.applyRule_eq` — rules come to the same values with both.
-/

namespace Scannerless

variable {V : Type}

/-! ### Arguments -/

namespace Strict

/-- Tokens have a value, and so has a list if its items have one. -/
instance [Semantic V] : Semantic (Option V) where
  ofLexeme text := some (Semantic.ofLexeme text)
  undefined := some Semantic.undefined
  ofList values := (values.mapM id).map Semantic.ofList

/-- The arguments that are left while an action takes some of them. -/
abbrev Arguments (V : Type) :=
  StateT (List V) Option

/-- The argument at a place, which is to be of some kind. -/
def look {α : Type} (place : Nat) (kind? : V → Option α) : Arguments V α :=
  fun arguments => do
    let value ← arguments[place]?
    let found ← kind? value
    return (found, arguments)

/-- Takes the argument at a place, which is to be of some kind. Those behind it move up. -/
def take {α : Type} (place : Nat) (kind? : V → Option α) : Arguments V α :=
  fun arguments => do
    let value ← arguments[place]?
    let found ← kind? value
    return (found, arguments.eraseIdx place)

/-- Takes all arguments, which are to be of some kind. -/
def takeAll {α : Type} (kind? : V → Option α) : Arguments V (List α) :=
  fun arguments => do
    let found ← arguments.mapM kind?
    return (found, [])

/-- The action that takes its arguments. It has no result if it misses one. -/
def applied (action : RuleContext → Arguments V V) (c : RuleContext)
    (arguments : List (Option V)) : Option V := do
  let arguments ← arguments.mapM id
  (action c).run' arguments

theorem mapM_some (values : List V) : (values.map some).mapM id = some values := by
  induction values with
  | nil => rfl
  | cons value values ih =>
    rw [List.map_cons, List.mapM_cons, ih]
    rfl

theorem applied_some (action : RuleContext → Arguments V V) (c : RuleContext) (values : List V) :
    applied action c (values.map some) = (action c).run' values := by
  rw [applied, mapM_some]
  rfl

/-- A strict action has the value of another one, if that is a good one. -/
def Mirrors (good : V → Prop) (f : RuleContext → List (Option V) → Option V)
    (g : RuleContext → List V → V) : Prop :=
  ∀ c values, good (g c values) → f c (values.map some) = some (g c values)

/-- A result of a strict action is the value of another one. -/
def Confirms (f : RuleContext → List (Option V) → Option V) (g : RuleContext → List V → V) : Prop :=
  ∀ c values value, f c (values.map some) = some value → g c values = value

end Strict

/-! ### Registries -/

/-- Two registries bind the same names in the same order, the one to strict actions for those of
    the other one. -/
def Registry.Mirrors (strict : Registry (Option V)) (actions : Registry V) (good : V → Prop) :
    Prop :=
  List.Forall₂ (fun a b => a.1 = b.1 ∧ Strict.Mirrors good a.2 b.2) strict.actions actions.actions

/-- Two registries bind the same names in the same order, and results of the one are those of the
    other one. -/
def Registry.Confirms (strict : Registry (Option V)) (actions : Registry V) : Prop :=
  List.Forall₂ (fun a b => a.1 = b.1 ∧ Strict.Confirms a.2 b.2) strict.actions actions.actions

namespace Registry.Mirrors

variable {strict : Registry (Option V)} {actions : Registry V} {good : V → Prop}

theorem find? (h : strict.Mirrors actions good) {name : String}
    {g : RuleContext → List V → V} (hg : actions.find? name = some g) :
    ∃ f, strict.find? name = some f ∧ Strict.Mirrors good f g := by
  rw [Registry.find?] at hg ⊢
  rw [Registry.Mirrors] at h
  generalize strict.actions = as at h ⊢
  generalize actions.actions = bs at h hg
  induction h with
  | nil => cases hg
  | @cons a b as bs hab _ ih =>
    obtain ⟨key, f⟩ := a
    obtain ⟨key', g'⟩ := b
    obtain ⟨hkey, hmirrors⟩ := hab
    obtain rfl : key = key' := hkey
    rw [List.lookup_cons] at hg ⊢
    cases hname : name == key with
    | true =>
      rw [hname] at hg
      obtain rfl := Option.some_inj.mp hg
      exact ⟨f, rfl, hmirrors⟩
    | false =>
      rw [hname] at hg
      exact ih hg

/-- A rule comes to the same value with both registries, if it is a good one. -/
theorem applyRule_eq [Semantic V] (h : strict.Mirrors actions good) {c : RuleContext}
    {values : List V} {value : V} (hvalue : applyRule actions c values = .ok value)
    (hgood : good value) : applyRule strict c (values.map some) = .ok (some value) := by
  have hcollapse : collapse (values.map some) = some (collapse values) := by
    rcases values with _ | ⟨v, _ | ⟨w, vs⟩⟩
    · rfl
    · rfl
    · show Option.map _ (((v :: w :: vs).map some).mapM id) = _
      rw [Strict.mapM_some]
      rfl
  rw [applyRule] at hvalue ⊢
  cases haction : c.grammar.actionOf c.rule with
  | none =>
    simp only [haction] at hvalue ⊢
    obtain rfl := Except.ok.inj hvalue
    rw [defaultValue, defaultValue, hcollapse]
    split <;> rfl
  | some action =>
    simp only [haction] at hvalue ⊢
    cases action with
    | first =>
      obtain rfl := Except.ok.inj hvalue
      cases values <;> rfl
    | undefined =>
      obtain rfl := Except.ok.inj hvalue
      rfl
    | array =>
      obtain rfl := Except.ok.inj hvalue
      show Except.ok (Option.map _ ((values.map some).mapM id)) = _
      rw [Strict.mapM_some]
      rfl
    | named name =>
      cases hg : actions.find? name with
      | none =>
        simp only [hg] at hvalue
        cases hvalue
      | some g =>
        simp only [hg] at hvalue
        obtain rfl := Except.ok.inj hvalue
        obtain ⟨f, hf, hmirrors⟩ := h.find? hg
        simp only [hf]
        rw [hmirrors c values hgood]

end Registry.Mirrors

end Scannerless
