import Mathlib.Logic.Relation
import Scannerless.Loop

/-!
# Loops that come to an end

A loop that comes to an end has the result of its last step. What its steps keep holds
in all states that it passes through.

## Main definitions

- `Ends` — a loop comes from a state to a result in finitely many steps.
- `Passes` — a loop comes from a state to another one.

## Main statements

- `Ends.loop_eq` — the result of a loop that comes to an end.
- `Passes.invariant` — what every step keeps.
-/

namespace Scannerless

variable {σ β : Type} {step : σ → σ ⊕ β} {s s' : σ} {b : β}

/-- A loop comes from a state to a result. -/
inductive Ends (step : σ → σ ⊕ β) : σ → β → Prop where
  | done {s : σ} {b : β} (h : step s = .inr b) : Ends step s b
  | next {s s' : σ} {b : β} (h : step s = .inl s') (hrest : Ends step s' b) : Ends step s b

/-- A loop comes from a state to another one, in any number of steps. -/
def Passes (step : σ → σ ⊕ β) : σ → σ → Prop :=
  Relation.ReflTransGen fun s s' => step s = .inl s'

theorem Ends.loop_eq [Nonempty β] (h : Ends step s b) : loop step s = b := by
  induction h with
  | done h => exact loop_of_inr h
  | next h _ ih => rw [loop_of_inl h, ih]

theorem Passes.refl (s : σ) : Passes step s s :=
  Relation.ReflTransGen.refl

theorem Passes.one (h : step s = .inl s') : Passes step s s' :=
  Relation.ReflTransGen.single h

theorem Passes.trans {s'' : σ} (h : Passes step s s') (h' : Passes step s' s'') :
    Passes step s s'' :=
  Relation.ReflTransGen.trans h h'

theorem Passes.ends (h : Passes step s s') (hend : Ends step s' b) : Ends step s b := by
  induction h using Relation.ReflTransGen.head_induction_on with
  | refl => exact hend
  | head hstep _ ih => exact .next hstep ih

/-- A loop that comes to a result passes through a state whose step has it. -/
theorem Ends.exists_passes (h : Ends step s b) : ∃ s', Passes step s s' ∧ step s' = .inr b := by
  induction h with
  | done h => exact ⟨_, .refl _, h⟩
  | next h _ ih =>
    obtain ⟨s', hpasses, hlast⟩ := ih
    exact ⟨s', (Passes.one h).trans hpasses, hlast⟩

/-- What holds at first, and what every step keeps, holds in all states that a loop passes
    through. -/
theorem Passes.invariant (h : Passes step s s') {P : σ → Prop} (hzero : P s)
    (hstep : ∀ s s', P s → step s = .inl s' → P s') : P s' := by
  induction h with
  | refl => exact hzero
  | tail _ hs ih => exact hstep _ _ ih hs

end Scannerless
