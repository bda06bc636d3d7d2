/-!
# Outcomes of steps

Steps that may fail follow one another: all of them succeed if the last one gives a
result.

## Main statements

- `bind_eq_ok_iff` — two steps succeed one after the other.
- `foldlM_ok_induction` — what each step of a loop keeps, the loop keeps.
- `exists_of_foldlM_error` — a loop fails in its first pass that does.
-/

namespace Scannerless

variable {ε α β : Type}

/-- Two steps succeed exactly if the first one does and the second one does with its
    result. -/
theorem bind_eq_ok_iff {x : Except ε α} {f : α → Except ε β} {b : β} :
    (x >>= f) = .ok b ↔ ∃ a, x = .ok a ∧ f a = .ok b := by
  cases x with
  | error e =>
    constructor
    · intro h
      cases h
    · rintro ⟨a, h, -⟩
      cases h
  | ok a =>
    constructor
    · intro h
      exact ⟨a, rfl, h⟩
    · rintro ⟨a', h, h'⟩
      cases h
      exact h'

theorem map_eq_ok_iff {f : α → β} {x : Except ε α} {b : β} :
    x.map f = .ok b ↔ ∃ a, x = .ok a ∧ f a = b := by
  cases x with
  | error e =>
    constructor
    · intro h
      cases h
    · rintro ⟨a, h, -⟩
      cases h
  | ok a =>
    constructor
    · intro h
      exact ⟨a, rfl, Except.ok.inj h⟩
    · rintro ⟨a', h, h'⟩
      cases h
      exact congrArg Except.ok h'

theorem exists_eq_ok_of_any {x : Except ε α} {test : α → Bool}
    (h : x.toOption.any test = true) : ∃ a, x = .ok a ∧ test a = true := by
  cases x with
  | error e => cases h
  | ok a => exact ⟨a, rfl, h⟩

theorem eq_ok_of_toOption {x : Except ε α} {a : α} (h : x.toOption = some a) : x = .ok a := by
  cases x with
  | error e => cases h
  | ok b => exact congrArg Except.ok (Option.some_inj.mp h)

theorem exists_eq_error_of_toOption {x : Except ε α} (h : x.toOption = none) :
    ∃ e, x = .error e := by
  cases x with
  | error e => exact ⟨e, rfl⟩
  | ok a => cases h

/-- What is so before a loop over the numbers below `n`, and what each pass keeps, is so
    after the loop. -/
theorem foldlM_ok_induction {f : α → Nat → Except ε α} {n : Nat} {a b : α}
    (h : (List.range n).foldlM f a = .ok b) {P : Nat → α → Prop} (hzero : P 0 a)
    (hstep : ∀ k a b, k < n → P k a → f a k = .ok b → P (k + 1) b) : P n b := by
  induction n generalizing b with
  | zero =>
    cases h
    exact hzero
  | succ n ih =>
    rw [List.range_succ, List.foldlM_append, bind_eq_ok_iff] at h
    obtain ⟨c, hc, hlast⟩ := h
    rw [List.foldlM_cons, bind_eq_ok_iff] at hlast
    obtain ⟨d, hd, hnil⟩ := hlast
    obtain rfl : d = b := Except.ok.inj hnil
    exact hstep n c d (Nat.lt_succ_self n)
      (ih hc fun k a b hk => hstep k a b (Nat.lt_succ_of_lt hk)) hd

/-- A loop over the numbers below `n` fails in the first pass that does. -/
theorem exists_of_foldlM_error {f : α → Nat → Except ε α} {n : Nat} {a : α} {e : ε}
    (h : (List.range n).foldlM f a = .error e) :
    ∃ k < n, ∃ b, (List.range k).foldlM f a = .ok b ∧ f b k = .error e := by
  induction n with
  | zero => cases h
  | succ n ih =>
    rw [List.range_succ, List.foldlM_append] at h
    cases hn : (List.range n).foldlM f a with
    | error e' =>
      rw [hn] at h
      obtain rfl : e' = e := Except.error.inj h
      obtain ⟨k, hk, hfails⟩ := ih hn
      exact ⟨k, Nat.lt_succ_of_lt hk, hfails⟩
    | ok b =>
      rw [hn] at h
      refine ⟨n, Nat.lt_succ_self n, b, hn, ?_⟩
      rw [← h, ← bind_pure (f b n)]
      rfl

theorem exists_foldlM_ok {f : α → Nat → Except ε α} (hf : ∀ a k, ∃ b, f a k = .ok b)
    (ks : List Nat) (a : α) : ∃ b, ks.foldlM f a = .ok b := by
  induction ks generalizing a with
  | nil => exact ⟨a, rfl⟩
  | cons k ks ih =>
    obtain ⟨b, hb⟩ := hf a k
    obtain ⟨c, hc⟩ := ih b
    refine ⟨c, ?_⟩
    rw [List.foldlM_cons, bind_eq_ok_iff]
    exact ⟨b, hb, hc⟩

end Scannerless
