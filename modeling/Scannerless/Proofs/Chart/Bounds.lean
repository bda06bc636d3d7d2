import Mathlib.Algebra.Order.BigOperators.Group.List
import Mathlib.Tactic.Ring
import Scannerless.Proofs.Chart.Closure
import Scannerless.Proofs.Loop

/-!
# Bounds of closing and of charts

The items of a set are gone through while it grows. This comes to an end since a set never has
more items than there are dots in rules and sets to begin in. Added up over all sets this bounds
the number of items in a chart.

## Main definitions

- `Chart.Closing.advance` — goes on to the next item of a set, if there is one.

## Main statements

- `Chart.WellFormed.ends_close` — going through the items of a set comes to an end.
- `Chart.numItems_le` — how many items there are in a chart.
-/

namespace Scannerless

namespace Chart

variable {t : RuleTable} {c : Chart t} {starts : List SymbolId} {l : Lattice} {k i : Nat}

/-- Does the item at an index of set `k` and goes on to the next one, as long as there is
    one. -/
def Closing.advance (k : Nat) : Nat × Closing t → (Nat × Closing t) ⊕ Closing t
  | (i, w) => if i < (w.chart.setAt k).size then .inl (i + 1, w.step k i) else .inr w

/-- The items of a set come to an end, and those that are gone through in so many steps are
    all. -/
theorem Closing.Noted.ends {w : Closing t} (hw : w.Noted k i) (hi : t.Indexed) {steps : Nat}
    (hsteps : t.dotted * (k + 1) ≤ steps + i) :
    Ends (Closing.advance k) (i, w) (Closing.run k steps i w) := by
  induction steps generalizing i w with
  | zero =>
    have hsize := hw.wellFormed.size_le k
    refine .done ?_
    rw [Closing.advance, if_neg (by omega), Closing.run]
  | succ steps ih =>
    rw [Closing.run]
    split
    next hlt =>
      refine .next ?_ (ih (hw.step hi hlt) (by omega))
      rw [Closing.advance, if_pos hlt]
    next hge =>
      refine .done ?_
      rw [Closing.advance, if_neg hge]

/-- Closing a set is to go through its items to their end. -/
theorem WellFormed.ends_close (hc : c.WellFormed) (hi : t.Indexed) (k : Nat) :
    ∃ w, Ends (Closing.advance k) (0, ⟨c, []⟩) w ∧ w.chart = c.close k :=
  ⟨_, (hc.noted k).ends hi (Nat.le_refl (t.dotted * (k + 1))), rfl⟩

theorem WellFormed.close (hc : c.WellFormed) (hi : t.Indexed) (k : Nat) :
    (c.close k).WellFormed := by
  obtain ⟨-, -, hclosed⟩ := (hc.noted k).run hi (P := fun _ w => w.chart.WellFormed) hc
    (fun _ _ hw _ hlt => (hw.step hi hlt).wellFormed) (Nat.le_refl (t.dotted * (k + 1)))
  exact hclosed

/-! ### Items of all sets -/

theorem numItems_eq_sum (c : Chart t) :
    c.numItems = ((List.range c.sets.size).map fun k => (c.setAt k).size).sum := by
  have hsets : (List.range c.sets.size).map (fun k => (c.setAt k).size) =
      c.sets.toList.map (·.size) := by
    refine List.ext_getElem (by simp) fun k h _ => ?_
    have hk : k < c.sets.size := by simpa using h
    simp [setAt, hk]
  rw [hsets, c.numItems_eq, countItems, ← Array.foldl_toList, List.sum_eq_foldl, List.foldl_map]

theorem sum_succ_mul (d n : Nat) :
    ((List.range n).map fun k => d * (k + 1)).sum * 2 = d * n * (n + 1) := by
  induction n with
  | zero => simp
  | succ n ih =>
    rw [List.range_succ, List.map_append, List.sum_append, Nat.add_mul, ih]
    simp only [List.map_singleton, List.sum_singleton]
    ring

/-- If each set has no more items than some number for each set up to it, there are no more
    items than half of this number for each pair of a set and another one. -/
theorem numItems_le {d n : Nat} (hn : c.sets.size = n)
    (h : ∀ k, (c.setAt k).size ≤ d * (k + 1)) : c.numItems ≤ d * n * (n + 1) / 2 := by
  have hsum : c.numItems ≤ ((List.range n).map fun k => d * (k + 1)).sum := by
    rw [numItems_eq_sum, hn]
    exact List.sum_le_sum fun k _ => h k
  rw [Nat.le_div_iff_mul_le Nat.two_pos, ← sum_succ_mul]
  exact Nat.mul_le_mul_right 2 hsum

end Chart

end Scannerless
