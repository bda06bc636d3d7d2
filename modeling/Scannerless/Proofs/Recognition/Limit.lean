import Scannerless.Proofs.Recognition.Forest

/-!
# Runs within a limit

A run within a limit makes the additions of the log one by one, as the run without a limit does,
until one of them would bring an item too many. A limit that is large enough is not noticed, and
one that is not ends the run where the first item too many belongs.

## Main definitions

- `Recognition.created` — the additions of a run that brought an item.

## Main statements

- `Grammar.Coherent.outcome_runTo` — a run does what the additions of the log do.
- `recognize_within` — what comes of a run within a limit.
-/

namespace Scannerless

open Text

def Overrun.excess (o : Overrun) : Excess :=
  ⟨o.limit, o.offset⟩

/-- The chart that a run came to, or the item too many that cut it short. -/
def Run.outcome {g : Grammar} (x : Except Overrun (Run g)) : Except Excess (Chart g.structural) :=
  (x.map (·.chart)).mapError Overrun.excess

theorem Run.exists_of_outcome_eq_ok {g : Grammar} {x : Except Overrun (Run g)}
    {c : Chart g.structural} (h : Run.outcome x = .ok c) : ∃ run, x = .ok run ∧ run.chart = c := by
  cases x with
  | error o => cases h
  | ok run => exact ⟨run, rfl, Except.ok.inj h⟩

theorem Run.exists_of_outcome_eq_error {g : Grammar} {x : Except Overrun (Run g)} {n k : Nat}
    (h : Run.outcome x = .error ⟨n, k⟩) : ∃ o, x = .error o ∧ o.error = .exhausted n k := by
  cases x with
  | ok run => cases h
  | error o =>
    obtain ⟨rfl, rfl⟩ := Excess.mk.inj (Except.error.inj h)
    exact ⟨o, rfl, rfl⟩

/-! ### Stages within a limit -/

theorem Chart.closeAdditions_of_isEmpty {t : RuleTable} {c : Chart t} {k : Nat}
    (h : (c.setAt k).isEmpty = true) : c.closeAdditions k = [] := by
  rw [StateSet.isEmpty, beq_iff_eq] at h
  rw [closeAdditions]
  cases t.dotted * (k + 1) with
  | zero => rfl
  | succ steps =>
    rw [Closing.runAdditions, if_neg]
    simp [h]

namespace Run

variable {g : Grammar} {input : Indexed} {k : Nat} {limit : Option Nat} {r : Run g}

theorem outcome_first (g : Grammar) (limit : Option Nat) (input : Indexed) :
    outcome (Run.first g limit input) =
      (Chart.ofSize (input.size + 1)).acceptAll limit
        (Chart.predictions g.structural 0 g.start) := by
  rw [first, Chart.predictWithin]
  split
  next c hc => exact hc.symm
  next e he => exact he.symm

theorem outcome_scanAll {offset start : Nat} {found : List (SymbolId × Nat)}
    (h : ∀ f ∈ found, f.2 ≠ offset) :
    outcome (Run.scanAll limit offset start r found) =
      r.chart.acceptAll limit (r.chart.scanAdditions offset start found) := by
  rw [← Chart.foldlM_scanWithin h, scanAll]
  simp only
  split
  next c hc => exact hc.symm
  next e he => exact he.symm

/-- To visit a place is to make the additions of its stage. -/
theorem outcome_visit (hg : g.Coherent) (hr : r.Before input k) :
    outcome (r.visit limit input k) =
      r.chart.acceptAll limit (g.passAdditions input k r.chart) := by
  have hskip := hr.faithful.skip_eq k
  rw [Grammar.passAdditions, Chart.acceptAll_append_eq, ← Chart.closeWithin_eq,
    ← Chart.close_eq, visit]
  simp only
  split
  next e he =>
    rw [he]
    rfl
  next c hc =>
    obtain rfl := Chart.eq_close_of_closeWithin hc
    rw [hc, hskip, Grammar.found]
    split
    · rfl
    next hend =>
      rw [(hr.faithful.skip k).lexemes_eq]
      have hfound : g.found input k (r.chart.close k) =
          g.tokensAt input (g.skipEnd input k) (ascending ((r.chart.close k).expected k)) := by
        rw [Grammar.found, if_neg hend]
      rw [← hfound]
      exact outcome_scanAll fun f hf => (hg.lt_of_mem_found hf).ne'

/-- A pass makes the additions of its stage, of which there are none if nothing reaches the
    place. -/
theorem outcome_pass (hg : g.Coherent) (hr : r.Before input k) :
    outcome (r.pass limit input k) =
      r.chart.acceptAll limit (g.passAdditions input k r.chart) := by
  rw [pass]
  split
  next hempty =>
    rw [Grammar.passAdditions, Chart.close_of_isEmpty hempty,
      Chart.closeAdditions_of_isEmpty hempty, Grammar.found_of_isEmpty hg.lexicon hempty]
    rfl
  next => exact outcome_visit hg hr

theorem pass_none_of_ok {r' : Run g} (h : r.pass limit input k = .ok r') :
    r.pass none input k = .ok r' := by
  rw [pass] at h ⊢
  split at h
  next hempty => rwa [if_pos hempty]
  next hempty =>
    obtain ⟨r'', hr''⟩ : ∃ r'', r.visit none input k = .ok r'' := exists_visit_none r k
    rw [if_neg hempty, hr'', visit_eq_ok h, visit_eq_ok hr'']

end Run

namespace Grammar

variable {g : Grammar} {input : Indexed} {limit : Option Nat}

/-- A run makes the additions of the log one by one. -/
theorem Coherent.outcome_runTo (hg : g.Coherent) (k : Nat) :
    Run.outcome (g.runTo limit input k) =
      (Chart.ofSize (input.size + 1)).acceptAll limit (g.log input k) := by
  induction k with
  | zero =>
    rw [log, ← Run.outcome_first, runTo]
    cases Run.first g limit input <;> rfl
  | succ k ih =>
    rw [log, Chart.acceptAll_append_eq, ← ih, ← hg.chartAt_eq]
    rw [runTo_succ]
    cases hto : g.runTo limit input k with
    | error o => rfl
    | ok run =>
      have hbefore := before_of_runTo hg.lexicon hto
      have hpass : Run.outcome (run.pass limit input k) = _ := Run.outcome_pass hg hbefore
      rw [hbefore.chart] at hpass
      exact hpass

/-- What a run comes to within a limit it comes to without one. -/
theorem runTo_none_of_ok {k : Nat} {run : Run g} (h : g.runTo limit input k = .ok run) :
    g.runTo none input k = .ok run := by
  induction k generalizing run with
  | zero =>
    obtain ⟨first, hfirst⟩ := Run.exists_first_none g input
    rw [runTo, bind_eq_ok_iff] at h ⊢
    obtain ⟨first', hfirst', hrest⟩ := h
    rw [Run.eq_of_first hfirst'] at hrest
    rw [Run.eq_of_first hfirst] at hfirst
    exact ⟨_, hfirst, hrest⟩
  | succ k ih =>
    rw [runTo_succ, bind_eq_ok_iff] at h ⊢
    obtain ⟨before, hbefore, hpass⟩ := h
    exact ⟨before, ih hbefore, Run.pass_none_of_ok hpass⟩

/-- The additions of a run are for sets that the chart has. -/
theorem Coherent.place_lt (hg : g.Coherent) {k : Nat} (hk : k ≤ input.size + 1) {a : Addition}
    (ha : a ∈ g.log input k) : a.place < input.size + 1 := by
  induction k with
  | zero =>
    obtain ⟨id, -, rfl⟩ := List.mem_map.mp ha
    exact Nat.succ_pos _
  | succ k ih =>
    rcases List.mem_append.mp ha with ha | ha
    · exact ih (Nat.le_of_succ_le hk) ha
    · rcases List.mem_append.mp ha with ha | ha
      · rw [(Chart.closes_of_mem_closeAdditions ha).place]
        exact hk
      · obtain ⟨s, j, it, i, hf, -, -, rfl⟩ := Chart.mem_scanAdditions_iff.mp ha
        exact Nat.lt_succ_of_le (hg.of_mem_found hf).2.2.le_size.2

end Grammar

/-! ### Whole runs within a limit -/

namespace Recognition

variable {r : Recognition} {limit : Option Nat} {n : Nat}

/-- The additions of a run that brought an item, in their order. -/
def created (r : Recognition) : List Addition :=
  (Chart.ofSize (r.input.size + 1) : Chart r.grammar.structural).created
    (r.grammar.log r.input (r.input.size + 1))

theorem Ended.place_lt (hr : r.Ended) :
    ∀ a ∈ r.grammar.log r.input (r.input.size + 1),
      a.place < (Chart.ofSize (r.input.size + 1) : Chart r.grammar.structural).sets.size := by
  intro a ha
  rw [Chart.ofSize, Chart.ofSets, Array.size_replicate]
  exact hr.coherent.place_lt (Nat.le_refl _) ha

theorem Ended.chart_eq_applyAll (hr : r.Ended) :
    r.run.chart = (Chart.ofSize (r.input.size + 1)).applyAll
      (r.grammar.log r.input (r.input.size + 1)) :=
  hr.chart_eq.trans (hr.coherent.chartAt_eq _)

/-- There are as many items as additions that brought one. -/
theorem Ended.numItems_eq (hr : r.Ended) : r.run.chart.numItems = r.created.length := by
  rw [hr.chart_eq_applyAll, Chart.numItems_applyAll hr.place_lt, Chart.numItems_ofSize,
    Nat.zero_add]
  rfl

/-- The items are those that additions brought. -/
theorem Ended.exists_item?_iff (hr : r.Ended) {k : Nat} {it : Item} :
    (∃ i, r.run.chart.item? ⟨k, i⟩ = some it) ↔
      (k, it) ∈ r.created.map fun a => (a.place, a.item) := by
  rw [← Chart.mem_items_iff, ← Chart.has_eq_true_iff, hr.chart_eq_applyAll,
    Chart.has_applyAll_iff hr.place_lt, created, or_iff_right]
  rw [Chart.has_eq_true_iff, Chart.mem_items_iff]
  rintro ⟨i, hit⟩
  rw [Chart.item?_ofSize] at hit
  cases hit

/-- A run within a limit comes to the end of one without a limit that makes no more items. -/
theorem Ended.runTo_of_le (hr : r.Ended) (h : r.created.length ≤ n)
    (hto : r.grammar.runTo none r.input (r.input.size + 1) = .ok r.run) :
    r.grammar.runTo (some n) r.input (r.input.size + 1) = .ok r.run := by
  have houtcome : Run.outcome (r.grammar.runTo (some n) r.input (r.input.size + 1)) = _ :=
    hr.coherent.outcome_runTo _
  rw [Chart.acceptAll_eq_ok_of_le hr.place_lt (by rwa [Chart.numItems_ofSize, Nat.zero_add])]
    at houtcome
  obtain ⟨run, hrun, -⟩ := Run.exists_of_outcome_eq_ok houtcome
  rw [hrun, ← hto, Grammar.runTo_none_of_ok hrun]

/-- A run is cut short by the first addition that brings an item too many. -/
theorem Ended.runTo_of_getElem? (hr : r.Ended) {a : Addition} (h : r.created[n]? = some a) :
    ∃ o, r.grammar.runTo (some n) r.input (r.input.size + 1) = .error o ∧
      o.error = .exhausted n a.place := by
  have houtcome : Run.outcome (r.grammar.runTo (some n) r.input (r.input.size + 1)) = _ :=
    hr.coherent.outcome_runTo _
  rw [Chart.acceptAll_eq_error hr.place_lt (by simp [Chart.numItems_ofSize])
    (by rwa [Chart.numItems_ofSize, Nat.sub_zero])] at houtcome
  exact Run.exists_of_outcome_eq_error houtcome

/-- So an input is recognized within a limit as it is without one, or the limit is exceeded. -/
theorem Ended.recognizeIndexed_of_le (hr : r.Ended) (h : r.created.length ≤ n)
    (hto : r.grammar.runTo none r.input (r.input.size + 1) = .ok r.run) :
    recognizeIndexed r.grammar (some n) r.input = .ok r :=
  recognizeIndexed_eq_ok_iff.mpr ⟨r.run, hr.runTo_of_le h hto, rfl⟩

theorem Ended.recognizeIndexed_of_getElem? (hr : r.Ended) {a : Addition}
    (h : r.created[n]? = some a) :
    ∃ o, recognizeIndexed r.grammar (some n) r.input = .error o ∧
      o.error = .exhausted n a.place := by
  obtain ⟨o, ho, herror⟩ := hr.runTo_of_getElem? h
  refine ⟨o, ?_, herror⟩
  rw [recognizeIndexed_eq, ho]
  rfl

end Recognition

/-- A run makes no more items than its limit allows. It makes the additions that the run without
    a limit makes, as long as none brings an item too many. So it comes to the same end if that
    one brings no more, and else it ends at the set of the first item too many. -/
theorem recognize_within {g : Grammar} (hg : g.IsCompiled) (input : String) :
    ∃ r, recognize g none input = .ok r ∧
      (r.run.chart.numItems = r.created.length ∧
        countItems r.run.chart.sets = r.created.length ∧
        (r.created.map fun a => (a.place, a.item)).Nodup ∧
        ∀ k it, (∃ i, r.run.chart.item? ⟨k, i⟩ = some it) ↔
          (k, it) ∈ r.created.map fun a => (a.place, a.item)) ∧
      (∀ n, r.created.length ≤ n → recognize g (some n) input = .ok r) ∧
      (∀ n a, r.created[n]? = some a →
        ∃ o, recognize g (some n) input = .error o ∧ o.error = .exhausted n a.place) ∧
      (∀ limit k, Run.outcome (g.runTo limit r.input k) =
        (Chart.ofSize (r.input.size + 1)).acceptAll limit (g.log r.input k)) ∧
      (∀ n m c, (Chart.ofSize (r.input.size + 1)).acceptAll (some n)
        ((r.grammar.log r.input (r.input.size + 1)).take m) = .ok c →
          c = r.state m ∧ c.numItems ≤ n) ∧
      ∀ (c : Chart g.structural) limit a, (c.setAt a.place).has a.item = true →
        c.accept limit a = .ok (c.apply a) ∧ (c.apply a).numItems = c.numItems := by
  obtain ⟨r, hr⟩ := exists_recognizeIndexed_none g (.ofList input.toList)
  have hended : r.Ended := ended_of_recognize hg hr
  obtain ⟨run, hto, rfl⟩ := recognizeIndexed_eq_ok_iff.mp hr
  refine ⟨_, hr, ⟨hended.numItems_eq, ?_, (Chart.nodup_created hended.place_lt).2,
    fun k it => hended.exists_item?_iff⟩, fun n hle => ?_, fun n a ha => ?_,
    fun limit k => hg.coherent.outcome_runTo k, fun n m c hc => ⟨?_, ?_⟩,
    fun c limit a hthere => ⟨Chart.accept_of_has hthere, Chart.numItems_apply_of_has hthere⟩⟩
  · rw [← run.chart.numItems_eq]
    exact hended.numItems_eq
  · exact hended.recognizeIndexed_of_le hle hto
  · exact hended.recognizeIndexed_of_getElem? ha
  · exact Chart.eq_applyAll_of_acceptAll hc
  · refine Chart.numItems_le_of_acceptAll (fun a ha => hended.place_lt a (List.mem_of_mem_take ha))
      ?_ hc
    rw [Chart.numItems_ofSize]
    exact Nat.zero_le n

/-- A sum of two letters takes 11 items, and one less is too few. -/
theorem recognize_within_sums :
    ∃ g r, Definition.sums.compile = .ok g ∧ recognize g none "a+a" = .ok r ∧
      r.run.chart.numItems = 11 ∧ recognize g (some 11) "a+a" = .ok r ∧
      ∃ o, recognize g (some 10) "a+a" = .error o ∧ o.error = .exhausted 10 3 := by
  have htest : Definition.sums.compile.toOption.any (fun g =>
      (recognize g none "a+a").toOption.any fun r =>
        r.run.chart.numItems == 11 && (r.created[10]?.map (·.place)) == some 3) = true := by
    decide +kernel
  obtain ⟨g, hg, htest⟩ := exists_eq_ok_of_any htest
  obtain ⟨r, hr, htest⟩ := exists_eq_ok_of_any htest
  rw [Bool.and_eq_true, beq_iff_eq, beq_iff_eq, Option.map_eq_some_iff] at htest
  obtain ⟨hcount, a, ha, hplace⟩ := htest
  obtain ⟨r', hr', ⟨hitems, -⟩, hwhole, hcut, -⟩ := recognize_within (Or.inl ⟨_, hg⟩) "a+a"
  obtain rfl : r' = r := Except.ok.inj (hr'.symm.trans hr)
  obtain ⟨o, ho, herror⟩ := hcut 10 a ha
  refine ⟨g, r', hg, hr, hcount, hwhole 11 (by omega), o, ho, ?_⟩
  rw [herror, hplace]

end Scannerless
