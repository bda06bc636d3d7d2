/-!
# Loops

A loop repeats a step for as long as the step leads on, and has the result of the
last one. Nothing is said here about whether there is a last one.

## Main definitions

- `loop` — repeats a step until it gives a result.

## Main statements

- `loop_of_inl`, `loop_of_inr` — a loop goes on as its step does.
-/

namespace Scannerless

variable {σ β : Type} [Nonempty β]

/-- Repeats a step from a state on until it gives a result. -/
def loop (step : σ → σ ⊕ β) (s : σ) : β :=
  (repeatM (fun s => pure (step s)) s : Id β).run

variable {step : σ → σ ⊕ β} {s s' : σ} {b : β}

theorem loop_of_inl (h : step s = .inl s') : loop step s = loop step s' := by
  rw [loop, repeatM_eq_of_monadTail]
  simp only [repeatM.body, pure_bind, h]
  rfl

theorem loop_of_inr (h : step s = .inr b) : loop step s = b := by
  rw [loop, repeatM_eq_of_monadTail]
  simp only [repeatM.body, pure_bind, h]
  rfl

end Scannerless
