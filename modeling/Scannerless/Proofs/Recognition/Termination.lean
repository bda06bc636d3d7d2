import Scannerless.Proofs.Chart.Bounds
import Scannerless.Proofs.Recognition.Limit
import Scannerless.Proofs.Recognition.Skips

/-!
# Runs come to an end

A run visits a place, and then the next one that items are for, until there is none. Tokens lead
forwards and not beyond the input, so that it comes to an end. A visit goes through the items of
a set while it grows, which ends as well. So there are only so many items, and a limit that
allows for them is never exceeded.

## Main definitions

- `Chart.nextPlace?` — the next set that has items.
- `Run.advance` — visits a place and goes on to the next one.
- `Grammar.Visits` — a run without further passes is about to visit a place.

## Main statements

- `Grammar.Visits.ends` — the visits come to an end.
- `Grammar.Visits.passes` — they come to every place that is reached.
- `recognize_terminates` — runs end, and how many items they make.
-/

namespace Scannerless

open Text

/-! ### The next place -/

namespace Chart

variable {t : RuleTable} {c : Chart t} {k j : Nat}

/-- The first set behind set `k` that has items. -/
def nextPlace? (c : Chart t) (k : Nat) : Option Nat :=
  (List.range' (k + 1) (c.sets.size - (k + 1))).find? fun j => !(c.setAt j).isEmpty

theorem lt_size_of_isEmpty_eq_false (h : (c.setAt k).isEmpty = false) : k < c.sets.size := by
  refine Nat.lt_of_not_le fun hle => ?_
  rw [setAt_eq_empty hle] at h
  cases h

theorem nextPlace?_eq_some_iff :
    c.nextPlace? k = some j ↔ (k < j ∧ (c.setAt j).isEmpty = false) ∧
      ∀ m, k < m → m < j → (c.setAt m).isEmpty = true := by
  rw [nextPlace?, List.find?_range'_eq_some]
  simp only [Bool.not_eq_true', List.mem_range'_1, Bool.not_not]
  constructor
  · rintro ⟨hj, ⟨hlt, -⟩, hbetween⟩
    exact ⟨⟨hlt, hj⟩, fun m hm hmj => hbetween m hm hmj⟩
  · rintro ⟨⟨hlt, hj⟩, hbetween⟩
    have hsize := lt_size_of_isEmpty_eq_false hj
    exact ⟨hj, ⟨hlt, by omega⟩, fun m hm hmj => hbetween m hm hmj⟩

theorem nextPlace?_eq_none_iff :
    c.nextPlace? k = none ↔ ∀ m, k < m → (c.setAt m).isEmpty = true := by
  rw [nextPlace?, List.find?_range'_eq_none]
  constructor
  · intro h m hm
    rcases Nat.lt_or_ge m c.sets.size with hsize | hsize
    · simpa using h m hm (by omega)
    · rw [setAt_eq_empty hsize]
      rfl
  · intro h m hm _
    simpa using h m hm

end Chart

/-! ### Visits -/

/-- Visits a place and goes on to the next one that items are for, as long as there is one. -/
def Run.advance {g : Grammar} (limit : Option Nat) (input : Indexed) :
    Nat × Run g → (Nat × Run g) ⊕ Except Overrun (Run g)
  | (k, r) =>
    match r.visit limit input k with
    | .error o => .inr (.error o)
    | .ok r' =>
      match r'.chart.nextPlace? k with
      | some j => .inl (j, r')
      | none => .inr (.ok r')

namespace Grammar

variable {g : Grammar} {limit : Option Nat} {input : Indexed} {k j m : Nat} {r r' : Run g}

/-- A run that was cut short does not go on. -/
theorem runTo_of_error {o : Overrun} (h : g.runTo limit input k = .error o) (hk : k ≤ m) :
    g.runTo limit input m = .error o := by
  induction m, hk using Nat.le_induction with
  | base => exact h
  | succ m _ ih =>
    rw [runTo_succ, ih]
    rfl

/-- Nothing is done at places that no items are for. -/
theorem runTo_of_isEmpty (h : g.runTo limit input k = .ok r) (hk : k ≤ m)
    (hempty : ∀ j, k ≤ j → j < m → (r.chart.setAt j).isEmpty = true) :
    g.runTo limit input m = .ok r := by
  induction m, hk using Nat.le_induction with
  | base => exact h
  | succ m hm ih =>
    rw [runTo_succ, ih fun j hj hlt => hempty j hj (by omega)]
    show Run.pass limit input r m = .ok r
    rw [Run.pass, if_pos (hempty m hm (Nat.lt_succ_self m))]

/-- A run is about to visit a place that items are for. -/
structure Visits (g : Grammar) (limit : Option Nat) (input : Indexed) (k : Nat) (r : Run g) :
    Prop where
  runTo : g.runTo limit input k = .ok r
  isEmpty : (r.chart.setAt k).isEmpty = false

namespace Visits

theorem runTo_succ (h : g.Visits limit input k r) :
    g.runTo limit input (k + 1) = r.visit limit input k := by
  rw [Grammar.runTo_succ, h.runTo]
  show Run.pass limit input r k = _
  rw [Run.pass, if_neg (by simp [h.isEmpty])]

theorem le_size (h : g.Visits limit input k r) (hg : g.Coherent) : k ≤ input.size := by
  have hlt := Chart.lt_size_of_isEmpty_eq_false h.isEmpty
  rw [(before_of_runTo hg.lexicon h.runTo).chart, hg.size_sets_chartAt] at hlt
  exact Nat.le_of_lt_succ hlt

/-- A visit that leads on leads to a later place, and no items are for those between. -/
theorem advance (h : g.Visits limit input k r)
    (hstep : Run.advance limit input (k, r) = .inl (j, r')) :
    (k < j ∧ r.visit limit input k = .ok r' ∧
      ∀ m, k < m → m < j → (r'.chart.setAt m).isEmpty = true) ∧ g.Visits limit input j r' := by
  rw [Run.advance] at hstep
  split at hstep
  next => cases hstep
  next r'' hvisit =>
    split at hstep
    next j' hnext =>
      obtain ⟨rfl, rfl⟩ := Prod.mk.inj (Sum.inl.inj hstep)
      obtain ⟨⟨hlt, hj⟩, hbetween⟩ := Chart.nextPlace?_eq_some_iff.mp hnext
      refine ⟨⟨hlt, hvisit, hbetween⟩, runTo_of_isEmpty (h.runTo_succ.trans hvisit) hlt ?_, hj⟩
      exact fun m hm hmj => hbetween m hm hmj
    next => cases hstep

/-- The visits come to an end, which is that of the run. -/
theorem ends (hg : g.Coherent) (h : g.Visits limit input k r) :
    Scannerless.Ends (Run.advance limit input) (k, r)
      (g.runTo limit input (input.size + 1)) := by
  -- Every visit that leads on leaves fewer places to come.
  induction hleft : input.size - k using Nat.strong_induction_on generalizing k r with
  | _ left ih =>
    have hk := h.le_size hg
    cases hstep : Run.advance limit input (k, r) with
    | inl next =>
      obtain ⟨j, r'⟩ := next
      obtain ⟨⟨hlt, -⟩, hnext⟩ := h.advance hstep
      have hj := hnext.le_size hg
      exact .next hstep (ih (input.size - j) (by omega) hnext rfl)
    | inr last =>
      refine .done ?_
      rw [hstep]
      refine congrArg Sum.inr ?_
      rw [Run.advance] at hstep
      split at hstep
      next o hvisit =>
        obtain rfl := Sum.inr.inj hstep
        exact (runTo_of_error (h.runTo_succ.trans hvisit) (by omega)).symm
      next r' hvisit =>
        split at hstep
        next => cases hstep
        next hnone =>
          obtain rfl := Sum.inr.inj hstep
          have hempty := Chart.nextPlace?_eq_none_iff.mp hnone
          exact (runTo_of_isEmpty (h.runTo_succ.trans hvisit) (by omega)
            fun m hm _ => hempty m hm).symm

/-- The visits come to every later place that items are for when the run comes to it. -/
theorem passes (h : g.Visits limit input k r) (h' : g.Visits limit input m r') (hm : k ≤ m) :
    Passes (Run.advance limit input) (k, r) (m, r') := by
  induction hleft : m - k using Nat.strong_induction_on generalizing k r with
  | _ left ih =>
    rcases Nat.eq_or_lt_of_le hm with rfl | hlt
    · obtain rfl := Except.ok.inj (h.runTo.symm.trans h'.runTo)
      exact .refl _
    obtain ⟨r'', hr''⟩ : ∃ r'', g.runTo limit input (k + 1) = .ok r'' :=
      exists_runTo_of_le hlt h'.runTo
    have hvisit := h.runTo_succ.symm.trans hr''
    -- If no items were for the places up to `m`, none would be for place `m`.
    have hnext (hbetween : ∀ i, k < i → i ≤ m → (r''.chart.setAt i).isEmpty = true) : False := by
      have hsame := runTo_of_isEmpty hr'' hlt fun i hi him => hbetween i hi him.le
      obtain rfl := Except.ok.inj (hsame.symm.trans h'.runTo)
      have hempty := hbetween m hlt (Nat.le_refl m)
      rw [h'.isEmpty] at hempty
      cases hempty
    cases hplace : r''.chart.nextPlace? k with
    | none =>
      have hempty := Chart.nextPlace?_eq_none_iff.mp hplace
      exact absurd (fun i hi _ => hempty i hi) hnext
    | some j =>
      have hstep : Run.advance limit input (k, r) = .inl (j, r'') := by
        simp only [Run.advance, hvisit, hplace]
      obtain ⟨⟨hkj, -, hbetween⟩, hj⟩ := h.advance hstep
      rcases Nat.lt_or_ge m j with hmj | hjm
      · exact absurd (fun i hi him => hbetween i hi (by omega)) hnext
      · exact (Passes.one hstep).trans (ih (m - j) (by omega) hj hjm rfl)

end Visits

/-- The chart before a visit can be closed: going through the items of the set comes to its
    end. -/
theorem Coherent.ends_close (hg : g.Coherent) (h : g.Visits limit input k r) :
    ∃ w, Scannerless.Ends (Chart.Closing.advance k) (0, ⟨r.chart, []⟩) w ∧
      r.chart.closeWithin none k = .ok w.chart ∧
      (w.chart.setAt k).size ≤ g.structural.dotted * (k + 1) := by
  obtain ⟨last, hlast⟩ := exists_recognizeIndexed_none g input
  obtain ⟨rfl, rfl, hended⟩ := hg.ended hlast
  have hstage : r.chart.Stage [last.grammar.start] last.lattice k := by
    rw [(before_of_runTo hg.lexicon h.runTo).chart]
    exact hended.fits_lattice.stage hg ((h.le_size hg).trans (Nat.le_succ _))
  have hwell := hstage.arises.wellFormed hg.structural hended.forward
  obtain ⟨w, hends, hchart⟩ := hwell.ends_close hg.structural k
  refine ⟨w, hends, ?_, ?_⟩
  · rw [hchart, Chart.closeWithin_none]
  · rw [hchart]
    exact (hwell.close hg.structural k).size_le k

end Grammar

namespace Recognition

variable {r : Recognition} {limit : Option Nat} {k : Nat}

/-- The places that a run is about to visit at some time are those that are reached in the
    end. -/
theorem Ended.exists_visits_iff (hr : r.Ended)
    (hend : r.grammar.runTo limit r.input (r.input.size + 1) = .ok r.run) :
    (∃ run, r.grammar.Visits limit r.input k run) ↔ r.Reached k := by
  rw [hr.reached_iff]
  constructor
  · rintro ⟨run, hvisits⟩
    have hchart := (Grammar.before_of_runTo hr.coherent.lexicon hvisits.runTo).chart
    exact ⟨Nat.lt_succ_of_le (hvisits.le_size hr.coherent), hchart ▸ hvisits.isEmpty⟩
  · rintro ⟨hlt, hk⟩
    obtain ⟨run, hrun⟩ := Grammar.exists_runTo_of_le hlt.le hend
    have hchart := (Grammar.before_of_runTo hr.coherent.lexicon hrun).chart
    exact ⟨run, hrun, hchart ▸ hk⟩

theorem Ended.numItems_le (hr : r.Ended) :
    r.run.chart.numItems ≤
      r.grammar.structural.dotted * (r.input.size + 1) * (r.input.size + 2) / 2 := by
  refine Chart.numItems_le ?_ fun k =>
    hr.finished.arises.size_le hr.coherent.structural hr.forward k
  rw [hr.chart_eq, Grammar.lastChart, hr.coherent.size_sets_chartAt]

end Recognition

/-- A run without a limit comes to an end: visit by visit it goes to later places, which are all
    that its chart has items for, and each visit goes through the items of a set to their end.
    These are places of the input. The number of items is bounded by that of the dots in rules
    and that of the pairs of places, and a limit that is no smaller changes nothing. -/
theorem recognize_terminates {g : Grammar} (hg : g.IsCompiled) (input : Indexed) :
    g.structural.dotted = (g.structural.rules.toList.map fun rule => rule.rhs.length + 1).sum ∧
    ∃ first last : Run g, Run.first g none input = .ok first ∧
      recognizeIndexed g none input = .ok ⟨g, input, last⟩ ∧
      Ends (Run.advance none input) (0, first) (.ok last) ∧
      (∀ k, (last.chart.setAt k).isEmpty = false ↔
        ∃ r, Passes (Run.advance none input) (0, first) (k, r)) ∧
      (∀ k r, Passes (Run.advance none input) (0, first) (k, r) →
        (input.HasPlace k ∧ k ≤ input.size) ∧
        (∃ w, Ends (Chart.Closing.advance k) (0, ⟨r.chart, []⟩) w ∧
          r.chart.closeWithin none k = .ok w.chart ∧
          (w.chart.setAt k).size ≤ g.structural.dotted * (k + 1)) ∧
        ∀ j r', Run.advance none input (k, r) = .inl (j, r') → k < j) ∧
      last.chart.numItems ≤
        g.structural.dotted * (input.size + 1) * (input.size + 2) / 2 ∧
      ∀ limit, g.structural.dotted * (input.size + 1) * (input.size + 2) / 2 ≤ limit →
        recognizeIndexed g (some limit) input = .ok ⟨g, input, last⟩ := by
  have hcoherent := hg.coherent
  obtain ⟨r, hr⟩ := exists_recognizeIndexed_none g input
  obtain ⟨last, hto, rfl⟩ := recognizeIndexed_eq_ok_iff.mp hr
  have hended : (⟨g, input, last⟩ : Recognition).Ended := (hcoherent.ended hr).2.2
  obtain ⟨first, hfirst⟩ := Run.exists_first_none g input
  have hzero : g.Visits none input 0 first := by
    obtain ⟨run, hvisits⟩ :=
      (hended.exists_visits_iff hto).mpr (hended.reached_zero hg.wellFormed.start)
    have hrun : g.runTo none input 0 = .ok first := by
      rw [Grammar.runTo, hfirst]
      rfl
    obtain rfl := Except.ok.inj (hrun.symm.trans hvisits.runTo)
    exact hvisits
  have hpassed {k : Nat} {r : Run g}
      (h : Passes (Run.advance none input) (0, first) (k, r)) : g.Visits none input k r :=
    h.invariant (P := fun s => g.Visits none input s.1 s.2) hzero
      fun _ _ hvisits hstep => (hvisits.advance hstep).2
  have hcount := hended.numItems_le
  refine ⟨Chart.dotted_eq_sum _, first, last, hfirst, hr, ?_, fun k => ?_,
    fun k r h => ⟨?_, ?_, ?_⟩, hcount, fun limit hlimit => ?_⟩
  · have hends := hzero.ends hcoherent
    rwa [hto] at hends
  · show Recognition.Reached ⟨g, input, last⟩ k ↔ _
    rw [← hended.exists_visits_iff hto]
    exact exists_congr fun r => ⟨fun h => hzero.passes h (Nat.zero_le k), hpassed⟩
  · have hreached := (hended.exists_visits_iff hto).mp ⟨r, hpassed h⟩
    have hplace := hended.hasPlace_of_reached hreached
    exact ⟨hplace, hplace.le_size⟩
  · exact hcoherent.ends_close (hpassed h)
  · intro j r' hstep
    exact ((hpassed h).advance hstep).1.1
  · refine hended.recognizeIndexed_of_le ?_ hto
    rw [← hended.numItems_eq]
    exact hcount.trans hlimit

/-- A rule that is empty and one that begins with its own symbol make no more than 60 items of
    four characters, and so many are enough. -/
theorem recognize_terminates_words :
    ∃ g r, Definition.words.compile = .ok g ∧ recognize g none "a aa" = .ok r ∧
      r.run.chart.numItems ≤ 60 ∧ recognize g (some 60) "a aa" = .ok r := by
  have htest : Definition.words.compile.toOption.any (fun g =>
      g.structural.dotted == 4 && (Indexed.ofList "a aa".toList).size == 4) = true := by
    decide +kernel
  obtain ⟨g, hg, htest⟩ := exists_eq_ok_of_any htest
  rw [Bool.and_eq_true, beq_iff_eq, beq_iff_eq] at htest
  obtain ⟨hdotted, hsize⟩ := htest
  obtain ⟨-, first, last, -, hr, -, -, -, hcount, hlimit⟩ :=
    recognize_terminates (Or.inl ⟨_, hg⟩) (.ofList "a aa".toList)
  rw [hdotted, hsize] at hcount hlimit
  exact ⟨g, _, hg, hr, hcount, hlimit 60 (Nat.le_refl 60)⟩

end Scannerless
