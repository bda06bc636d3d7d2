import Scannerless.Proofs.Chart.Limit
import Scannerless.Proofs.Lexer.Skipping
import Scannerless.Recognition

/-!
# The course of a run

A run goes from stage to stage. What the chart is before the stage of a place depends on
the grammar and the input alone: not on the limit, nor on what the lexer was asked
before.

## Main definitions

- `Grammar.found`, `Grammar.passed` — the tokens and the chart of a stage.
- `Grammar.chartAt` — the chart before a stage.
- `Grammar.runTo`, `Run.Before` — a run before a stage, and what it is like.

## Main statements

- `Run.Before.pass` — a pass leads from a stage to the next one.
- `Grammar.before_of_runTo` — what a run is like that came to a stage.
- `exists_recognizeIndexed_none` — a run without a limit comes to its end.
-/

namespace Scannerless

open Text

namespace Grammar

variable {g : Grammar} {input : Indexed} {k : Nat}

/-- The tokens that are read from a place once its set is closed. -/
def found (g : Grammar) (input : Indexed) (k : Nat) (c : Chart g.structural) :
    List (SymbolId × Nat) :=
  if input.size ≤ g.skipEnd input k then []
  else g.tokensAt input (g.skipEnd input k) (ascending (c.expected k))

/-- The chart behind the stage of a place. -/
def passed (g : Grammar) (input : Indexed) (k : Nat) (c : Chart g.structural) :
    Chart g.structural :=
  (c.close k).scanAll k (g.skipEnd input k) (g.found input k (c.close k))

/-- The chart before the stage of a place. -/
def chartAt (g : Grammar) (input : Indexed) : Nat → Chart g.structural
  | 0 => (Chart.ofSize (input.size + 1)).predict 0 g.start
  | k + 1 => g.passed input k (g.chartAt input k)

/-- The complete items of the start symbol at a place behind which everything is
    discarded. -/
def rootsAt (g : Grammar) (input : Indexed) (k : Nat) : List ItemRef :=
  if input.size ≤ g.skipEnd input k then ((g.chartAt input k).close k).completed k g.start 0
  else []

end Grammar

/-! ### Stages that nothing reaches -/

namespace Chart

variable {t : RuleTable} {c : Chart t} {k : Nat}

theorem setAt_of_isEmpty (h : (c.setAt k).isEmpty = true) (i : Nat) :
    c.item? ⟨k, i⟩ = none := by
  cases hit : c.item? ⟨k, i⟩ with
  | none => rfl
  | some it =>
    have hlt := StateSet.item?_lt hit
    rw [StateSet.isEmpty, beq_iff_eq] at h
    exact absurd hlt (by simp [h])

theorem close_of_isEmpty (h : (c.setAt k).isEmpty = true) : c.close k = c := by
  rw [StateSet.isEmpty, beq_iff_eq] at h
  rw [close]
  generalize t.dotted * (k + 1) = steps
  cases steps with
  | zero => rfl
  | succ steps =>
    rw [Closing.run, if_neg]
    simp [h]

theorem expected_of_isEmpty (h : (c.setAt k).isEmpty = true) : c.expected k = [] := by
  refine List.eq_nil_iff_forall_not_mem.mpr fun s hs => ?_
  obtain ⟨-, i, it, hit, -⟩ := (mem_expected_iff c k s).mp hs
  rw [setAt_of_isEmpty h] at hit
  cases hit

theorem completed_of_isEmpty (h : (c.setAt k).isEmpty = true) (s : SymbolId) (origin : Nat) :
    c.completed k s origin = [] := by
  rw [completed, List.map_eq_nil_iff, StateSet.select_eq_nil_iff]
  intro it hit
  obtain ⟨i, hi⟩ := (c.mem_items_iff k it).mp hit
  rw [setAt_of_isEmpty h] at hi
  cases hi

theorem isEmpty_close_iff : ((c.close k).setAt k).isEmpty = true ↔ (c.setAt k).isEmpty = true := by
  refine ⟨fun h => ?_, fun h => by rwa [close_of_isEmpty h]⟩
  rw [StateSet.isEmpty, beq_iff_eq]
  refine Nat.eq_zero_of_not_pos fun hpos => ?_
  obtain ⟨it, hit⟩ := exists_item?_of_lt ⟨k, 0⟩ hpos
  have hclosed := item?_applyAll_of_some (c.closeAdditions k) hit
  rw [← close_eq, setAt_of_isEmpty h] at hclosed
  cases hclosed

end Chart

namespace Grammar

variable {g : Grammar} {input : Indexed} {k : Nat} {c : Chart g.structural}

theorem found_of_isEmpty (hg : g.Lexicon) (h : (c.setAt k).isEmpty = true) :
    g.found input k c = [] := by
  rw [found]
  split
  · rfl
  · refine List.eq_nil_iff_forall_not_mem.mpr fun f hf => ?_
    obtain ⟨hs, -⟩ := covers_of_mem_tokensAt hg (by simp [mem_ascending, h,
      Chart.expected_of_isEmpty]) hf
    rw [mem_ascending, Chart.expected_of_isEmpty h] at hs
    cases hs

/-- The stage of a place that nothing reaches changes nothing. -/
theorem passed_of_isEmpty (hg : g.Lexicon) (h : (c.setAt k).isEmpty = true) :
    g.passed input k c = c := by
  rw [passed, Chart.close_of_isEmpty h, found_of_isEmpty hg h]
  rfl

end Grammar

/-! ### Passes -/

/-- What a run is like before the stage of place `k`. -/
structure Run.Before {g : Grammar} (input : Indexed) (k : Nat) (r : Run g) : Prop where
  chart : r.chart = g.chartAt input k
  faithful : r.lexer.Faithful g input
  skips : ∀ j, r.lexer.skips[j]? =
    if j < k ∧ ((g.chartAt input j).setAt j).isEmpty = false then some (g.skipEnd input j)
    else none
  roots : r.roots = (List.range k).flatMap (g.rootsAt input)

namespace Run

variable {g : Grammar} {input : Indexed} {k : Nat} {limit : Option Nat} {r r' : Run g}

/-- A run before its first place has the predictions for the start symbol. -/
theorem eq_of_first (h : Run.first g limit input = .ok r) :
    r = ⟨(Chart.ofSize (input.size + 1)).predict 0 g.start, Lexer.initial, [], 0⟩ := by
  rw [first] at h
  split at h
  next c hc =>
    obtain rfl := Except.ok.inj h
    rw [Chart.eq_applyAll_of_acceptAll hc, Chart.predict_eq]
  next => cases h

theorem exists_first_none (g : Grammar) (input : Indexed) :
    ∃ r, Run.first g none input = .ok r := by
  rw [first, Chart.predictWithin, Chart.acceptAll_none]
  exact ⟨_, rfl⟩

theorem scanAll_eq_ok {offset start : Nat} {found : List (SymbolId × Nat)}
    (h : Run.scanAll limit offset start r found = .ok r') :
    r' = { r with chart := r.chart.scanAll offset start found } := by
  rw [scanAll] at h
  simp only at h
  split at h
  next c hc =>
    rw [← Chart.eq_scanAll_of_foldlM hc]
    exact (Except.ok.inj h).symm
  next => cases h

theorem exists_scanAll_none (offset start : Nat) (found : List (SymbolId × Nat)) (r : Run g) :
    ∃ r', Run.scanAll none offset start r found = .ok r' := by
  rw [scanAll]
  simp only [Chart.foldlM_scanWithin_none]
  exact ⟨_, rfl⟩

theorem visit_eq_ok (h : r.visit limit input k = .ok r') :
    r' =
      if input.size ≤ (r.lexer.skip g input k).1 then
        ⟨r.chart.close k, (r.lexer.skip g input k).2,
          r.roots ++ (r.chart.close k).completed k g.start 0, k⟩
      else
        let found := (r.lexer.skip g input k).2.lexemes g input (r.lexer.skip g input k).1
          ((r.chart.close k).expected k)
        ⟨(r.chart.close k).scanAll k (r.lexer.skip g input k).1 found.1, found.2, r.roots, k⟩ := by
  rw [visit] at h
  simp only at h
  split at h
  next => cases h
  next c hc =>
    rw [← Chart.eq_close_of_closeWithin hc]
    split at h
    next hend =>
      rw [if_pos hend]
      exact (Except.ok.inj h).symm
    next hend =>
      rw [if_neg hend]
      exact scanAll_eq_ok h

theorem exists_visit_none (r : Run g) (k : Nat) : ∃ r', r.visit none input k = .ok r' := by
  simp only [visit, Chart.closeWithin_none]
  split
  · exact ⟨_, rfl⟩
  · exact exists_scanAll_none _ _ _ _

theorem Before.visit (hr : r.Before input k) (hk : ((g.chartAt input k).setAt k).isEmpty = false)
    (h : r.visit limit input k = .ok r') : r'.Before input (k + 1) := by
  have hskip := hr.faithful.skip_eq k
  -- The lexer is asked for the end of what is discarded, whether tokens follow or not.
  have hskips (j : Nat) : (r.lexer.skip g input k).2.skips[j]? =
      if j < k + 1 ∧ ((g.chartAt input j).setAt j).isEmpty = false then
        some (g.skipEnd input j)
      else none := by
    rw [Lexer.getElem?_skips_skip hr.faithful, hr.skips]
    by_cases hj : j = k
    · rw [if_pos hj, if_pos ⟨by omega, by rw [hj]; exact hk⟩, hj]
    · rw [if_neg hj]
      refine if_congr (and_congr_left fun _ => ?_) rfl rfl
      omega
  have hroots : (List.range (k + 1)).flatMap (g.rootsAt input) =
      r.roots ++ g.rootsAt input k := by
    rw [List.range_succ, List.flatMap_append, List.flatMap_singleton, hr.roots]
  have hr' := visit_eq_ok h
  rw [hskip] at hr'
  split at hr'
  next hend =>
    subst hr'
    refine ⟨?_, hr.faithful.skip k, hskips, ?_⟩
    · rw [Grammar.chartAt, Grammar.passed, Grammar.found, if_pos hend, hr.chart]
      rfl
    · rw [hroots, Grammar.rootsAt, if_pos hend, hr.chart]
  next hend =>
    subst hr'
    refine ⟨?_, (hr.faithful.skip k).lexemes _ _, ?_, ?_⟩
    · rw [Grammar.chartAt, Grammar.passed, Grammar.found, if_neg hend, hr.chart]
      simp only
      rw [(hr.faithful.skip k).lexemes_eq]
    · simp only
      rw [Lexer.skips_lexemes]
      exact hskips
    · rw [hroots, Grammar.rootsAt, if_neg hend, List.append_nil]

/-- A pass leads from the stage of a place to that of the next one. -/
theorem Before.pass (hg : g.Lexicon) (hr : r.Before input k)
    (h : r.pass limit input k = .ok r') : r'.Before input (k + 1) := by
  rw [Run.pass, hr.chart] at h
  split at h
  next hempty =>
    obtain rfl := Except.ok.inj h
    refine ⟨?_, hr.faithful, fun j => ?_, ?_⟩
    · rw [Grammar.chartAt, Grammar.passed_of_isEmpty hg hempty, hr.chart]
    · rw [hr.skips]
      refine if_congr (and_congr_left fun hj => ?_) rfl rfl
      have hne : j ≠ k := by
        rintro rfl
        rw [hempty] at hj
        cases hj
      omega
    · have hroots : g.rootsAt input k = [] := by
        rw [Grammar.rootsAt, Chart.close_of_isEmpty hempty, Chart.completed_of_isEmpty hempty,
          ite_self]
      rw [List.range_succ, List.flatMap_append, List.flatMap_singleton, hroots, List.append_nil,
        hr.roots]
  next hempty => exact hr.visit (by simpa using hempty) h

end Run

/-! ### Whole runs -/

/-- A run before the stage of place `k`, from its first prediction on. -/
def Grammar.runTo (g : Grammar) (limit : Option Nat) (input : Indexed) (k : Nat) :
    Except Overrun (Run g) :=
  Run.first g limit input >>= (List.range k).foldlM (Run.pass limit input)

variable {g : Grammar} {limit : Option Nat} {input : Indexed} {r : Recognition}

theorem recognizeIndexed_eq (g : Grammar) (limit : Option Nat) (input : Indexed) :
    recognizeIndexed g limit input =
      (g.runTo limit input (input.size + 1)).map fun run => ⟨g, input, run⟩ := by
  rw [recognizeIndexed, Grammar.runTo]
  cases Run.first g limit input with
  | error o => rfl
  | ok first =>
    show (List.foldlM _ _ _ >>= _) = Except.map _ (List.foldlM _ _ _)
    cases (List.range (input.size + 1)).foldlM (Run.pass limit input) first <;> rfl

theorem recognizeIndexed_eq_ok_iff :
    recognizeIndexed g limit input = .ok r ↔
      ∃ run, g.runTo limit input (input.size + 1) = .ok run ∧ r = ⟨g, input, run⟩ := by
  rw [recognizeIndexed_eq, map_eq_ok_iff]
  simp only [eq_comm]

theorem Grammar.before_of_runTo (hg : g.Lexicon) {k : Nat} {run : Run g}
    (h : g.runTo limit input k = .ok run) : run.Before input k := by
  rw [runTo, bind_eq_ok_iff] at h
  obtain ⟨first, hfirst, hrest⟩ := h
  obtain rfl := Run.eq_of_first hfirst
  refine foldlM_ok_induction hrest ⟨rfl, Lexer.faithful_initial g input, fun j => ?_, rfl⟩
    fun k a b _ hbefore hpass => hbefore.pass hg hpass
  simp [Lexer.initial]

/-- A run that came to a stage came to those before it. -/
theorem Grammar.exists_runTo_of_le {k m : Nat} (hk : k ≤ m) {run : Run g}
    (h : g.runTo limit input m = .ok run) : ∃ run', g.runTo limit input k = .ok run' := by
  rw [runTo, bind_eq_ok_iff] at h
  obtain ⟨first, hfirst, hrest⟩ := h
  obtain ⟨n, rfl⟩ := Nat.exists_eq_add_of_le hk
  rw [List.range_add, List.foldlM_append, bind_eq_ok_iff] at hrest
  obtain ⟨run', hrun', -⟩ := hrest
  refine ⟨run', ?_⟩
  rw [runTo, bind_eq_ok_iff]
  exact ⟨first, hfirst, hrun'⟩

theorem Grammar.runTo_succ {k : Nat} :
    g.runTo limit input (k + 1) = (g.runTo limit input k >>= fun r => r.pass limit input k) := by
  rw [runTo, runTo, List.range_succ, bind_assoc]
  refine congrArg _ (funext fun r => ?_)
  rw [List.foldlM_append]
  refine congrArg _ (funext fun r' => ?_)
  rw [List.foldlM_cons]
  exact bind_pure _

/-- A run without a limit comes to its end. -/
theorem exists_recognizeIndexed_none (g : Grammar) (input : Indexed) :
    ∃ r, recognizeIndexed g none input = .ok r := by
  have hpass (r : Run g) (k : Nat) : ∃ r', r.pass none input k = .ok r' := by
    rw [Run.pass]
    split
    · exact ⟨r, rfl⟩
    · exact Run.exists_visit_none r k
  obtain ⟨first, hfirst⟩ := Run.exists_first_none g input
  obtain ⟨last, hlast⟩ := exists_foldlM_ok hpass (List.range (input.size + 1)) first
  refine ⟨⟨g, input, last⟩, recognizeIndexed_eq_ok_iff.mpr ⟨last, ?_, rfl⟩⟩
  rw [Grammar.runTo, bind_eq_ok_iff]
  exact ⟨first, hfirst, hlast⟩

end Scannerless
