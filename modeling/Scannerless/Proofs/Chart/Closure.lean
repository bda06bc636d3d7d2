import Mathlib.Algebra.BigOperators.Ring.List
import Mathlib.Algebra.Ring.Nat
import Mathlib.Data.List.Perm.Subperm
import Scannerless.Proofs.Chart.Origins

/-!
# Closing a set

A set is closed when its items, and those of earlier sets, are done: all that they
call for is there. Going through the items of a set does one of them after the other.
An item that is done later than the empty completion of the symbol it waits for moves
when it is done itself, and one that is done earlier moves with the completion.

## Main definitions

- `Chart.Saturated` — what the items that are done call for is there.
- `Chart.closeAdditions` — the additions of a run through a set.
- `Closing.Noted` — the invariant of the run through a set of any chart.
- `Closing.Steady` — the invariant of the run in a chart that arises.

## Main statements

- `Closing.Noted.mem_additions` — an item that is done makes all additions that it calls for
  together with those done before.
- `Closing.Noted.run` — what steps keep holds when all items are done.
- `Chart.WellFormed.size_le` — the run through a set is long enough.
- `Chart.Arises.saturated_close` — closing a set does all of its items.
-/

namespace Scannerless

/-- The tokens that are read from the places before `k`. -/
def Lattice.before (l : Lattice) (k : Nat) : Lattice :=
  ⟨l.start, fun j s stop => j < k ∧ l.token j s stop⟩

/-- Places without any tokens between them. -/
def Lattice.bare : Lattice :=
  ⟨id, fun _ _ _ => False⟩

theorem Lattice.forward_bare : Lattice.bare.Forward :=
  fun h => h.elim

/-- An addition to set `k` that moves no item over a token. -/
structure Addition.Closes (k : Nat) (a : Addition) : Prop where
  place : a.place = k
  scannedFrom : a.scannedFrom? = none

/-- An address in a set before `k`, or in set `k` at an index below `i`. -/
def ItemRef.Before (k i : Nat) (ref : ItemRef) : Prop :=
  ref.set < k ∨ ref.set = k ∧ ref.index < i

theorem ItemRef.Before.lt_of_ne {k i m : Nat} (h : (⟨k, m⟩ : ItemRef).Before k (i + 1))
    (hne : m ≠ i) : m < i := by
  rcases h with h | ⟨-, h⟩
  · exact absurd h (lt_irrefl k)
  · exact lt_of_le_of_ne (Nat.lt_succ_iff.mp h) hne

namespace Chart

variable {t : RuleTable} {c : Chart t} {starts : List SymbolId} {l : Lattice} {k i : Nat}

/-- What the items call for that are done is there. -/
def Saturated (c : Chart t) (starts : List SymbolId) (l : Lattice)
    (done : ItemRef → Prop) : Prop :=
  ∀ refs a, c.Calls starts l refs a → (∀ ref ∈ refs, done ref) → c.Has a

theorem predict_eq (c : Chart t) (k : Nat) (s : SymbolId) :
    c.predict k s = c.applyAll (predictions t k s) := by
  rw [applyAll, predictions, List.foldl_map]
  rfl

namespace Closing

theorem chart_step (k i : Nat) (w : Closing t) :
    (w.step k i).chart = w.chart.applyAll (w.additions k i) := by
  have hitem : (w.chart.setAt k).item? i = w.chart.item? ⟨k, i⟩ := rfl
  rw [step, additions, hitem]
  cases w.chart.item? ⟨k, i⟩ with
  | none => rfl
  | some it =>
    cases hs : t.next? it with
    | some s =>
      by_cases hrules : t.hasRules s
      · simp only [hs, hrules, if_true, predict, applyAll_append, ← predict_eq]
        rw [applyAll, List.foldl_map]
        rfl
      · simp only [hs, hrules, if_false, Bool.false_eq_true, applyAll_nil]
    | none =>
      cases hlhs : t.lhs? it.rule with
      | none => simp only [hs, hlhs, applyAll_nil]
      | some s =>
        simp only [hs, hlhs, complete]
        rw [applyAll, List.foldl_map]
        rfl

/-- A step takes note of its item if the item is completed empty. -/
theorem mem_nulled_step {w : Closing t} {it : Item} (hit : w.chart.item? ⟨k, i⟩ = some it)
    (s : SymbolId) (m : Nat) :
    (s, m) ∈ (w.step k i).nulled ↔
      (s, m) ∈ w.nulled ∨
        m = i ∧ t.next? it = none ∧ t.lhs? it.rule = some s ∧ it.origin = k := by
  have hitem : (w.chart.setAt k).item? i = some it := hit
  simp only [step, hitem]
  cases hs : t.next? it with
  | some s' => by_cases hrules : t.hasRules s' <;> simp [hrules, predict]
  | none =>
    cases hlhs : t.lhs? it.rule with
    | none => simp
    | some s' =>
      by_cases horigin : it.origin = k
      · simp [complete, horigin, eq_comm, and_comm]
      · simp [complete, horigin]

theorem closes_of_mem_additions {w : Closing t} {a : Addition} (ha : a ∈ w.additions k i) :
    a.Closes k := by
  rw [additions] at ha
  split at ha
  · cases ha
  · split at ha
    · split at ha
      · rcases List.mem_append.mp ha with ha | ha
        · obtain ⟨id, -, rfl⟩ := List.mem_map.mp ha
          exact ⟨rfl, rfl⟩
        · obtain ⟨trigger, -, rfl⟩ := List.mem_map.mp ha
          exact ⟨rfl, rfl⟩
      · cases ha
    · split at ha
      · obtain ⟨found, -, rfl⟩ := List.mem_map.mp ha
        exact ⟨rfl, rfl⟩
      · cases ha

/-- What holds of a run through set `k` before the item at index `i` is done: the chart is
    well-formed, and what was completed empty so far is known. -/
structure Noted (k i : Nat) (w : Closing t) : Prop where
  wellFormed : w.chart.WellFormed
  nulled : ∀ s m, (s, m) ∈ w.nulled ↔ m < i ∧ ∃ it, w.chart.item? ⟨k, m⟩ = some it ∧
    t.next? it = none ∧ t.lhs? it.rule = some s ∧ it.origin = k

/-- The invariant of the run through set `k` before the item at index `i` is
    done: the chart arises, what was completed empty so far is known, and the items
    before are done. -/
structure Steady (starts : List SymbolId) (l : Lattice) (k i : Nat) (w : Closing t) :
    Prop where
  arises : w.chart.Arises starts l
  nulled : ∀ s m, (s, m) ∈ w.nulled ↔ m < i ∧ ∃ it, w.chart.item? ⟨k, m⟩ = some it ∧
    t.next? it = none ∧ t.lhs? it.rule = some s ∧ it.origin = k
  saturated : w.chart.Saturated starts (l.before k) (ItemRef.Before k i)

theorem Steady.noted {w : Closing t} (hw : w.Steady starts l k i) (hi : t.Indexed)
    (hl : l.Forward) : w.Noted k i :=
  ⟨hw.arises.wellFormed hi hl, hw.nulled⟩

end Closing

theorem exists_item?_of_lt (ref : ItemRef) (h : ref.index < (c.setAt ref.set).size) :
    ∃ it, c.item? ref = some it := by
  rw [item?, StateSet.item?_eq]
  exact ⟨_, List.getElem?_eq_getElem (by rwa [StateSet.length_items])⟩

/-- A set that is not empty has a first item. -/
theorem exists_item?_of_isEmpty_eq_false (h : (c.setAt k).isEmpty = false) :
    ∃ it, c.item? ⟨k, 0⟩ = some it := by
  rw [StateSet.isEmpty, beq_eq_false_iff_ne] at h
  exact exists_item?_of_lt ⟨k, 0⟩ (Nat.pos_of_ne_zero h)

theorem mem_waitingFor_iff (c : Chart t) (k : Nat) (s : SymbolId) (it : Item) (i : Nat) :
    (it, i) ∈ (c.setAt k).waitingFor s ↔ c.item? ⟨k, i⟩ = some it ∧ t.next? it = some s := by
  rw [StateSet.waitingFor_eq, StateSet.select, selectItems, List.mem_filter,
    List.mk_mem_zipIdx_iff_getElem?, beq_iff_eq, ← StateSet.item?_eq]
  rfl

namespace Closing

variable {w : Closing t} {it : Item}

theorem Noted.calls_of_mem_additions (hw : w.Noted k i) {a : Addition}
    (ha : a ∈ w.additions k i) (starts : List SymbolId) (l : Lattice) :
    ∃ refs, w.chart.Calls starts l refs a := by
  rw [additions] at ha
  split at ha
  · cases ha
  next it hit =>
    split at ha
    next s hs =>
      split at ha
      next hrules =>
        rcases List.mem_append.mp ha with ha | ha
        · obtain ⟨id, hid, rfl⟩ := List.mem_map.mp ha
          exact ⟨_, .predicted hit hs hid⟩
        · obtain ⟨⟨s', m⟩, hm, rfl⟩ := List.mem_map.mp ha
          obtain ⟨hnulled, hsame⟩ := List.mem_filter.mp hm
          obtain rfl : s' = s := by simpa using hsame
          obtain ⟨-, child, hchild, hnext, hlhs, horigin⟩ := (hw.nulled _ _).mp hnulled
          exact ⟨_, .completed hit hchild hs hlhs hnext horigin⟩
      next => cases ha
    next hnext =>
      split at ha
      next s hlhs =>
        obtain ⟨⟨v, m⟩, hm, rfl⟩ := List.mem_map.mp ha
        have hmem : (v, m) ∈ (w.chart.setAt it.origin).waitingFor s := by
          split at hm
          · exact (List.mem_filter.mp hm).1
          · exact hm
        obtain ⟨hv, hvs⟩ := (mem_waitingFor_iff _ _ _ _ _).mp hmem
        exact ⟨_, .completed hv hit hvs hlhs hnext rfl⟩
      next => cases ha

/-- An item that is done later than an empty completion moves when it is done itself. -/
theorem Noted.mem_additions_of_source (hw : w.Noted k i) (hi : t.Indexed)
    {m : Nat} {child : Item} {s : SymbolId} (hit : w.chart.item? ⟨k, i⟩ = some it)
    (hchild : w.chart.item? ⟨k, m⟩ = some child) (hs : t.next? it = some s)
    (hlhs : t.lhs? child.rule = some s) (hnext : t.next? child = none) (horigin : child.origin = k)
    (hm : m < i) :
    ⟨k, it.advanced, some (.completed ⟨k, i⟩ ⟨k, m⟩)⟩ ∈ w.additions k i := by
  have hnulled : (s, m) ∈ w.nulled :=
    (hw.nulled s m).mpr ⟨hm, child, hchild, hnext, hlhs, horigin⟩
  simp only [additions, hit, hs, hi.hasRules_of_lhs hlhs, if_true]
  refine List.mem_append_right _ (List.mem_map.mpr ⟨(s, m), ?_, rfl⟩)
  exact List.mem_filter.mpr ⟨hnulled, by simp⟩

/-- An item that is done earlier moves with the completion. -/
theorem mem_additions_of_trigger {m : Nat} {child : Item} {s : SymbolId}
    (hit : w.chart.item? ⟨child.origin, m⟩ = some it) (hchild : w.chart.item? ⟨k, i⟩ = some child)
    (hs : t.next? it = some s) (hlhs : t.lhs? child.rule = some s) (hnext : t.next? child = none)
    (hm : child.origin = k → m < i) :
    ⟨k, it.advanced, some (.completed ⟨child.origin, m⟩ ⟨k, i⟩)⟩ ∈ w.additions k i := by
  have hwaiting : (it, m) ∈ (w.chart.setAt child.origin).waitingFor s :=
    (mem_waitingFor_iff _ _ _ _ _).mpr ⟨hit, hs⟩
  simp only [additions, hchild, hnext, hlhs]
  refine List.mem_map.mpr ⟨(it, m), ?_, rfl⟩
  split
  next hhere => exact List.mem_filter.mpr ⟨hwaiting, by simpa using hm (by simpa using hhere)⟩
  next => exact hwaiting

/-- What the item of a step calls for, together with items done before, is
    among the additions of the step. -/
theorem Noted.mem_additions (hw : w.Noted k i) (hi : t.Indexed)
    (htokens : ∀ s j, ¬l.token k s j) {refs : List ItemRef} {a : Addition}
    (ha : w.chart.Calls starts l refs a)
    (hrefs : ∀ ref ∈ refs, ref.Before k (i + 1)) (hself : ⟨k, i⟩ ∈ refs) :
    a ∈ w.additions k i := by
  cases ha with
  | start => cases hself
  | scanned hit hs hterm hj =>
    obtain rfl := List.mem_singleton.mp hself
    exact absurd hj (htokens _ _)
  | predicted hit hs hid =>
    obtain rfl := List.mem_singleton.mp hself
    simp only [additions, hit, hs, RuleTable.hasRules_of_mem hid, if_true]
    exact List.mem_append_left _ (List.mem_map.mpr ⟨_, hid, rfl⟩)
  | @completed source trigger it child s hit hchild hs hlhs hnext horigin =>
    have hsource := hrefs source (by simp)
    have htrigger := hrefs trigger (by simp)
    -- The item that moves waits, and the other one is complete: only one is at index `i`.
    have hne : source ≠ trigger := by
      rintro rfl
      obtain rfl := Option.some_inj.mp (hit.symm.trans hchild)
      rw [hs] at hnext
      cases hnext
    have hwhich : (⟨k, i⟩ : ItemRef) = source ∨ (⟨k, i⟩ : ItemRef) = trigger := by
      simpa using hself
    obtain ⟨set, m⟩ := source
    obtain rfl : child.origin = set := horigin
    obtain ⟨place, n⟩ := trigger
    rcases hwhich with h | h
    · obtain ⟨rfl, rfl⟩ := ItemRef.mk.inj h
      have hle : child.origin ≤ place := (hw.wellFormed _ _ hchild).origin_le
      -- No set behind this one has items that are done.
      obtain rfl : place = child.origin := by
        rcases htrigger with h | h
        · exact absurd hle (Nat.not_le_of_lt h)
        · exact h.1
      have hn := htrigger.lt_of_ne fun h => hne (h ▸ rfl)
      exact hw.mem_additions_of_source hi hit hchild hs hlhs hnext rfl hn
    · obtain ⟨rfl, rfl⟩ := ItemRef.mk.inj h
      refine mem_additions_of_trigger hit hchild hs hlhs hnext fun hhere => ?_
      rw [hhere] at hsource hne
      exact hsource.lt_of_ne fun h => hne (h ▸ rfl)

theorem item?_step_of_some (i : Nat) {ref : ItemRef} (h : w.chart.item? ref = some it) :
    (w.step k i).chart.item? ref = some it := by
  rw [chart_step]
  exact item?_applyAll_of_some _ h

/-- New items come behind those that are done. -/
theorem item?_of_step (hlt : i < (w.chart.setAt k).size) {ref : ItemRef}
    (href : ref.Before k (i + 1)) (h : (w.step k i).chart.item? ref = some it) :
    w.chart.item? ref = some it := by
  rcases href with hset | ⟨hset, hindex⟩
  · have hsame : (w.step k i).chart.setAt ref.set = w.chart.setAt ref.set := by
      rw [chart_step]
      refine setAt_applyAll fun a ha => ?_
      rw [(closes_of_mem_additions ha).place]
      exact (ne_of_lt hset).symm
    rwa [item?, hsame] at h
  · obtain ⟨v, hv⟩ : ∃ v, w.chart.item? ref = some v := by
      refine exists_item?_of_lt ref ?_
      rw [hset]
      omega
    obtain rfl := Option.some_inj.mp ((item?_step_of_some i hv).symm.trans h)
    exact hv

theorem Noted.mem_nulled_step_iff (hw : w.Noted k i)
    (hlt : i < (w.chart.setAt k).size) (s : SymbolId) (m : Nat) :
    (s, m) ∈ (w.step k i).nulled ↔ m < i + 1 ∧ ∃ it, (w.step k i).chart.item? ⟨k, m⟩ = some it ∧
      t.next? it = none ∧ t.lhs? it.rule = some s ∧ it.origin = k := by
  obtain ⟨it, hit⟩ := exists_item?_of_lt ⟨k, i⟩ hlt
  rw [mem_nulled_step hit, hw.nulled]
  constructor
  · rintro (⟨hm, v, hv, h⟩ | ⟨rfl, h⟩)
    · exact ⟨by omega, v, item?_step_of_some i hv, h⟩
    · exact ⟨by omega, it, item?_step_of_some m hit, h⟩
  · rintro ⟨hm, v, hv, h⟩
    -- What was noted before lies below the index of this step.
    have hold := item?_of_step hlt (Or.inr ⟨rfl, hm⟩) hv
    rcases Nat.lt_succ_iff_lt_or_eq.mp hm with hm | rfl
    · exact Or.inl ⟨hm, v, hold, h⟩
    · obtain rfl := Option.some_inj.mp (hold.symm.trans hit)
      exact Or.inr ⟨rfl, h⟩

/-- What an item calls for that is done, together with others, is there after the step that does
    it. What it calls for with items done before alone was there already. -/
theorem Noted.has_step (hw : w.Noted k i) (hi : t.Indexed) (htokens : ∀ s j, ¬l.token k s j)
    (hlt : i < (w.chart.setAt k).size) {refs : List ItemRef} {a : Addition}
    (ha : (w.step k i).chart.Calls starts l refs a)
    (hrefs : ∀ ref ∈ refs, ref.Before k (i + 1))
    (hold : w.chart.Calls starts l refs a → (∀ ref ∈ refs, ref.Before k i) → w.chart.Has a) :
    (w.step k i).chart.Has a := by
  have hcalls : w.chart.Calls starts l refs a :=
    ha.of_items fun ref href v => item?_of_step hlt (hrefs ref href)
  rw [chart_step]
  by_cases hself : ⟨k, i⟩ ∈ refs
  · obtain ⟨it, hit⟩ := exists_item?_of_lt ⟨k, i⟩ hlt
    have hmem := hw.mem_additions hi htokens hcalls hrefs hself
    refine has_of_mem hmem ?_
    rw [(closes_of_mem_additions hmem).place]
    exact set_lt_of_item? hit
  · -- Without the item of this step it was called for by items done before.
    refine Has.applyAll (hold hcalls fun ref href => ?_) _
    rcases hrefs ref href with h | ⟨hset, hindex⟩
    · exact Or.inl h
    · refine Or.inr ⟨hset, lt_of_le_of_ne (Nat.lt_succ_iff.mp hindex) fun h => hself ?_⟩
      rw [← hset, ← h]
      exact href

theorem Noted.step (hw : w.Noted k i) (hi : t.Indexed) (hlt : i < (w.chart.setAt k).size) :
    (w.step k i).Noted k (i + 1) where
  wellFormed := by
    rw [chart_step]
    refine hw.wellFormed.applyAll fun a ha => ?_
    obtain ⟨refs, hcalls⟩ := hw.calls_of_mem_additions ha [] .bare
    exact hcalls.fits hi Lattice.forward_bare hw.wellFormed
  nulled := hw.mem_nulled_step_iff hlt

/-- A step does the item at its index. -/
theorem Steady.step (hw : w.Steady starts l k i) (hi : t.Indexed) (hl : l.Forward)
    (hlt : i < (w.chart.setAt k).size) : (w.step k i).Steady starts l k (i + 1) where
  arises := by
    rw [chart_step]
    exact hw.arises.applyAll
      (.of_forall fun a ha => (hw.noted hi hl).calls_of_mem_additions ha starts l)
  nulled := (hw.noted hi hl).mem_nulled_step_iff hlt
  saturated _ _ ha hrefs :=
    (hw.noted hi hl).has_step (l := l.before k) hi (fun _ _ h => lt_irrefl k h.1) hlt ha hrefs
      (hw.saturated _ _)

end Closing

/-! ### The run through a set ends -/

/-- The rules of a table with a dot, and the sets up to `k` to begin in. -/
def admitted (t : RuleTable) (k : Nat) : List Item :=
  (List.range t.rules.size).flatMap fun id =>
    (List.range ((t.rhs id).length + 1)).flatMap fun dot =>
      (List.range (k + 1)).map fun origin => ⟨id, dot, origin⟩

theorem mem_admitted {it : Item} (h : t.Fits k it) : it ∈ admitted t k := by
  obtain ⟨s, hs⟩ := h.lhs
  have hid : it.rule < t.rules.size := by
    rw [RuleTable.lhs?, Option.map_eq_some_iff] at hs
    obtain ⟨r, hr, -⟩ := hs
    exact (Array.getElem?_eq_some_iff.mp hr).1
  simp only [admitted, List.mem_flatMap, List.mem_map, List.mem_range]
  exact ⟨_, hid, _, Nat.lt_succ_iff.mpr h.dot_le, _, Nat.lt_succ_iff.mpr h.origin_le, rfl⟩

/-- The places inside and around right sides, added up rule by rule. -/
theorem dotted_eq_sum (t : RuleTable) :
    t.dotted = (t.rules.toList.map fun r => r.rhs.length + 1).sum := by
  rw [RuleTable.dotted, ← Array.foldl_toList, List.sum_eq_foldl, List.foldl_map]

theorem dotted_eq (t : RuleTable) :
    t.dotted = ((List.range t.rules.size).map fun id => (t.rhs id).length + 1).sum := by
  rw [dotted_eq_sum]
  refine congrArg List.sum (List.ext_getElem (by simp) fun id h _ => ?_)
  have hid : id < t.rules.size := by simpa using h
  simp [RuleTable.rhs, hid]

theorem length_admitted (t : RuleTable) (k : Nat) :
    (admitted t k).length = t.dotted * (k + 1) := by
  rw [dotted_eq, ← List.sum_map_mul_right]
  simp only [admitted, List.length_flatMap, List.length_map, List.length_range,
    List.map_const', List.sum_replicate_nat]

/-- A set of a well-formed chart has no more items than there are dots in rules and sets to
    begin in. -/
theorem WellFormed.size_le (hc : c.WellFormed) (k : Nat) :
    (c.setAt k).size ≤ t.dotted * (k + 1) := by
  rw [← length_admitted, ← StateSet.length_items]
  refine List.Subperm.length_le ((c.setAt k).nodup_items.subperm fun it hmem => ?_)
  obtain ⟨i, hit⟩ := (c.mem_items_iff k it).mp hmem
  exact mem_admitted (hc ⟨k, i⟩ it hit)

theorem Arises.size_le (hi : t.Indexed) (hl : l.Forward) (hc : c.Arises starts l) (k : Nat) :
    (c.setAt k).size ≤ t.dotted * (k + 1) :=
  (hc.wellFormed hi hl).size_le k

/-- Going through enough items does all items of the set, and what each step keeps holds then. -/
theorem Closing.Noted.run {w : Closing t} (hw : w.Noted k i) (hi : t.Indexed)
    {P : Nat → Closing t → Prop} (hzero : P i w)
    (hstep : ∀ i w, w.Noted k i → P i w → i < (w.chart.setAt k).size → P (i + 1) (w.step k i))
    {steps : Nat} (hsteps : t.dotted * (k + 1) ≤ steps + i) :
    ∃ j, ((Closing.run k steps i w).chart.setAt k).size ≤ j ∧ P j (Closing.run k steps i w) := by
  induction steps generalizing i w with
  | zero =>
    have hsize := hw.wellFormed.size_le k
    exact ⟨i, by rw [Closing.run]; omega, hzero⟩
  | succ steps ih =>
    rw [Closing.run]
    split
    next hlt => exact ih (hw.step hi hlt) (hstep i w hw hzero hlt) (by omega)
    next hge => exact ⟨i, Nat.le_of_not_lt hge, hzero⟩

def Closing.runAdditions (k : Nat) : (steps i : Nat) → Closing t → List Addition
  | 0, _, _ => []
  | steps + 1, i, w =>
    if i < (w.chart.setAt k).size then
      w.additions k i ++ Closing.runAdditions k steps (i + 1) (w.step k i)
    else []

theorem Closing.chart_run (k steps i : Nat) (w : Closing t) :
    (Closing.run k steps i w).chart = w.chart.applyAll (Closing.runAdditions k steps i w) := by
  induction steps generalizing i w with
  | zero => rfl
  | succ steps ih =>
    rw [Closing.run, Closing.runAdditions]
    split
    · rw [ih, chart_step, applyAll_append]
    · rfl

def closeAdditions (c : Chart t) (k : Nat) : List Addition :=
  Closing.runAdditions k (t.dotted * (k + 1)) 0 ⟨c, []⟩

theorem close_eq (c : Chart t) (k : Nat) : c.close k = c.applyAll (c.closeAdditions k) :=
  Closing.chart_run k _ 0 ⟨c, []⟩

theorem Closing.closes_of_mem_runAdditions {w : Closing t} {steps : Nat} {a : Addition}
    (ha : a ∈ Closing.runAdditions k steps i w) : a.Closes k := by
  induction steps generalizing i w with
  | zero => cases ha
  | succ steps ih =>
    rw [Closing.runAdditions] at ha
    split at ha
    · rcases List.mem_append.mp ha with ha | ha
      · exact closes_of_mem_additions ha
      · exact ih ha
    · cases ha

theorem Closing.Noted.callsInTurn {w : Closing t} (hw : w.Noted k i) (hi : t.Indexed)
    (starts : List SymbolId) (l : Lattice) (steps : Nat) :
    CallsInTurn starts l w.chart (Closing.runAdditions k steps i w) := by
  induction steps generalizing i w with
  | zero => exact .nil _
  | succ steps ih =>
    rw [Closing.runAdditions]
    split
    next hlt =>
      refine .append (.of_forall fun a ha => hw.calls_of_mem_additions ha starts l) ?_
      rw [← chart_step]
      exact ih (hw.step hi hlt)
    next => exact .nil _

theorem closes_of_mem_closeAdditions {a : Addition} (ha : a ∈ c.closeAdditions k) :
    a.Closes k :=
  Closing.closes_of_mem_runAdditions ha

/-- The run through a set of a well-formed chart begins with nothing noted. -/
theorem WellFormed.noted (hc : c.WellFormed) (k : Nat) : Closing.Noted k 0 ⟨c, []⟩ where
  wellFormed := hc
  nulled s m := by simp

/-- What closing a set adds is called for when it is added. -/
theorem WellFormed.callsInTurn (hc : c.WellFormed) (hi : t.Indexed) (starts : List SymbolId)
    (l : Lattice) (k : Nat) : CallsInTurn starts l c (c.closeAdditions k) :=
  (hc.noted k).callsInTurn hi starts l _

/-- The run through a set begins with its invariant if the items of earlier sets
    are done. -/
theorem Arises.steady (hc : c.Arises starts l)
    (hsat : c.Saturated starts (l.before k) fun ref => ref.set < k) :
    Closing.Steady starts l k 0 ⟨c, []⟩ where
  arises := hc
  nulled := by simp
  saturated refs a ha hrefs := by
    refine hsat refs a ha fun ref href => ?_
    rcases hrefs ref href with h | h
    · exact h
    · exact absurd h.2 (Nat.not_lt_zero _)

theorem Calls.exists_item? {refs : List ItemRef} {a : Addition}
    (h : c.Calls starts l refs a) {ref : ItemRef} (href : ref ∈ refs) :
    ∃ it, c.item? ref = some it := by
  cases h with
  | start => cases href
  | predicted hit | scanned hit =>
    obtain rfl := List.mem_singleton.mp href
    exact ⟨_, hit⟩
  | completed hit hchild =>
    rcases List.mem_cons.mp href with rfl | href
    · exact ⟨_, hit⟩
    · obtain rfl := List.mem_singleton.mp href
      exact ⟨_, hchild⟩

/-- An item of a set up to `k` is done once all items of set `k` are. -/
theorem before_of_item? {ref : ItemRef} {it : Item} {j : Nat} (hit : c.item? ref = some it)
    (hle : ref.set ≤ k) (hsize : (c.setAt k).size ≤ j) : ref.Before k j := by
  rcases Nat.lt_or_eq_of_le hle with h | rfl
  · exact Or.inl h
  · exact Or.inr ⟨rfl, lt_of_lt_of_le (StateSet.item?_lt hit) hsize⟩

/-- Closing a set does all items up to it. -/
theorem Arises.saturated_close (hc : c.Arises starts l) (hi : t.Indexed) (hl : l.Forward)
    (hsat : c.Saturated starts (l.before k) fun ref => ref.set < k) :
    (c.close k).Saturated starts (l.before k) fun ref => ref.set ≤ k := by
  obtain ⟨j, hsize, hsteady⟩ := ((hc.wellFormed hi hl).noted k).run hi
    (P := Closing.Steady starts l k) (hc.steady hsat) (fun _ _ _ hw => hw.step hi hl)
    (Nat.le_refl (t.dotted * (k + 1)))
  intro refs a ha hrefs
  refine hsteady.saturated refs a ha fun ref href => ?_
  obtain ⟨it, hit⟩ := ha.exists_item? href
  exact before_of_item? hit (hrefs ref href) hsize

end Chart

end Scannerless
