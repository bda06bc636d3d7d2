import Scannerless.Proofs.Grammar.Coherence
import Scannerless.Proofs.Recognition.Run

/-!
# The log of a run

All additions of a run, one behind the other. A stage adds to its own set and to later
ones, so that a set is as it stays once the run has moved past its place. If a lattice
has the tokens that the run reads, every addition is called for, and the last chart has
all that its items call for.

## Main definitions

- `Grammar.log` — the additions of a run before a stage.
- `Grammar.Fits` — a lattice has the tokens that a run reads.

## Main statements

- `Grammar.Coherent.chartAt_eq` — the chart before a stage has the additions of the log.
- `Grammar.Coherent.setAt_chartAt` — a set does not change after the stage of its place.
- `Grammar.Fits.callsInTurn_log` — every addition of the log is called for.
- `Grammar.Fits.finished` — the last chart has all that its items call for.
-/

namespace Scannerless

open Text

namespace Grammar

variable {g : Grammar} {input : Indexed} {k : Nat}

theorem exists_mem_rhs_of_mem_expected {t : RuleTable} {c : Chart t} {s : SymbolId}
    (hs : s ∈ c.expected k) : ∃ id, s ∈ t.rhs id := by
  obtain ⟨-, i, it, -, hnext⟩ := (Chart.mem_expected_iff c k s).mp hs
  exact ⟨it.rule, List.mem_of_getElem? hnext⟩

theorem Coherent.expected_ne_char (hg : g.Coherent) {c : Chart g.structural} :
    ∀ s ∈ ascending (c.expected k), g.charClass? s = none := by
  intro s hs
  obtain ⟨id, hid⟩ := exists_mem_rhs_of_mem_expected (mem_ascending.mp hs)
  exact hg.charClass?_eq_none hid

/-- A token that is read from a place is expected there and derives the text from where
    skipping ends. -/
theorem Coherent.of_mem_found (hg : g.Coherent) {c : Chart g.structural} {s : SymbolId}
    {j : Nat} (h : (s, j) ∈ g.found input k c) :
    s ∈ c.expected k ∧ g.skipEnd input k < j ∧ g.Covers input s (g.skipEnd input k) j := by
  rw [found] at h
  split at h
  · cases h
  · obtain ⟨hs, hlt, hcovers⟩ := covers_of_mem_tokensAt hg.lexicon hg.expected_ne_char h
    exact ⟨mem_ascending.mp hs, hlt, hcovers⟩

theorem Coherent.lt_of_mem_found (hg : g.Coherent) {c : Chart g.structural}
    {f : SymbolId × Nat} (h : f ∈ g.found input k c) : k < f.2 := by
  obtain ⟨-, hlt, -⟩ := hg.of_mem_found (s := f.1) h
  exact Nat.lt_of_le_of_lt (le_skipEnd k) hlt

/-! ### Additions -/

/-- The additions of the stage of a place. -/
def passAdditions (g : Grammar) (input : Indexed) (k : Nat) (c : Chart g.structural) :
    List Addition :=
  c.closeAdditions k ++
    (c.close k).scanAdditions k (g.skipEnd input k) (g.found input k (c.close k))

/-- The additions of a run before the stage of a place. -/
def log (g : Grammar) (input : Indexed) : Nat → List Addition
  | 0 => Chart.predictions g.structural 0 g.start
  | k + 1 => log g input k ++ g.passAdditions input k (g.chartAt input k)

theorem Coherent.passed_eq (hg : g.Coherent) (c : Chart g.structural) :
    g.passed input k c = c.applyAll (g.passAdditions input k c) := by
  rw [passed, Chart.scanAll_eq fun f hf => (hg.lt_of_mem_found hf).ne', passAdditions,
    Chart.applyAll_append, ← Chart.close_eq]

/-- The chart before a stage has the additions of the log. -/
theorem Coherent.chartAt_eq (hg : g.Coherent) (k : Nat) :
    g.chartAt input k = (Chart.ofSize (input.size + 1)).applyAll (g.log input k) := by
  induction k with
  | zero => exact Chart.predict_eq _ _ _
  | succ k ih =>
    rw [chartAt, hg.passed_eq, log, Chart.applyAll_append, ← ih]

theorem Coherent.size_sets_chartAt (hg : g.Coherent) (k : Nat) :
    (g.chartAt input k).sets.size = input.size + 1 := by
  rw [hg.chartAt_eq, Chart.size_sets_applyAll, Chart.ofSize, Chart.ofSets,
    Array.size_replicate]

/-- A stage adds to its own set and to later ones. -/
theorem Coherent.le_place (hg : g.Coherent) {c : Chart g.structural} {a : Addition}
    (ha : a ∈ g.passAdditions input k c) : k ≤ a.place := by
  rcases List.mem_append.mp ha with ha | ha
  · exact (Chart.closes_of_mem_closeAdditions ha).place.ge
  · obtain ⟨s, j, it, i, hf, -, -, rfl⟩ := Chart.mem_scanAdditions_iff.mp ha
    exact (hg.lt_of_mem_found hf).le

/-- After the stages before place `k` only sets from there on are added to. -/
theorem Coherent.exists_log_eq_append (hg : g.Coherent) (input : Indexed) {m : Nat}
    (hk : k ≤ m) :
    ∃ rest, g.log input m = g.log input k ++ rest ∧ ∀ a ∈ rest, k ≤ a.place := by
  induction m with
  | zero =>
    obtain rfl := Nat.le_zero.mp hk
    exact ⟨[], by simp, by simp⟩
  | succ m ih =>
    rcases Nat.le_succ_iff.mp hk with hle | rfl
    · obtain ⟨rest, hrest, hplace⟩ := ih hle
      refine ⟨rest ++ g.passAdditions input m (g.chartAt input m), ?_, fun a ha => ?_⟩
      · rw [log, hrest, List.append_assoc]
      · rcases List.mem_append.mp ha with ha | ha
        · exact hplace a ha
        · exact Nat.le_trans hle (hg.le_place ha)
    · exact ⟨[], by simp, by simp⟩

/-- Reading tokens does not change the set that they are read from. -/
theorem Coherent.setAt_passed (hg : g.Coherent) (c : Chart g.structural) :
    (g.passed input k c).setAt k = (c.close k).setAt k := by
  rw [passed, Chart.scanAll_eq fun f hf => (hg.lt_of_mem_found hf).ne']
  refine Chart.setAt_applyAll fun a ha => ?_
  obtain ⟨s, j, it, i, hf, -, -, rfl⟩ := Chart.mem_scanAdditions_iff.mp ha
  exact (hg.lt_of_mem_found hf).ne'

/-- A set does not change after the stage of its place. -/
theorem Coherent.setAt_chartAt (hg : g.Coherent) {m : Nat} (hm : k < m) :
    (g.chartAt input m).setAt k = ((g.chartAt input k).close k).setAt k := by
  induction m with
  | zero => cases hm
  | succ m ih =>
    rcases Nat.lt_succ_iff_lt_or_eq.mp hm with h | rfl
    · -- Stages behind the place add to later sets only.
      rw [chartAt, hg.passed_eq, Chart.setAt_applyAll, ih h]
      intro a ha
      exact (Nat.lt_of_lt_of_le h (hg.le_place ha)).ne'
    · exact hg.setAt_passed _

/-- The items that a stage moves over tokens are those of its own set. -/
theorem eq_of_mem_scannedFrom {c : Chart g.structural} {m : Nat}
    (hm : m ∈ (g.passAdditions input k c).filterMap Addition.scannedFrom?) : m = k := by
  obtain ⟨a, ha, hfrom⟩ := List.mem_filterMap.mp hm
  rcases List.mem_append.mp ha with ha | ha
  · rw [(Chart.closes_of_mem_closeAdditions ha).scannedFrom] at hfrom
    cases hfrom
  · obtain ⟨s, j, it, i, -, -, -, rfl⟩ := Chart.mem_scanAdditions_iff.mp ha
    exact (Option.some_inj.mp hfrom).symm

/-- Items are moved over tokens in the order of their sets. -/
theorem pairwise_scannedFrom (g : Grammar) (input : Indexed) (k : Nat) :
    ((g.log input k).filterMap Addition.scannedFrom?).Pairwise (· ≤ ·) ∧
      ∀ m ∈ (g.log input k).filterMap Addition.scannedFrom?, m < k := by
  induction k with
  | zero =>
    have hnone : (g.log input 0).filterMap Addition.scannedFrom? = [] := by
      refine List.filterMap_eq_nil_iff.mpr fun a ha => ?_
      obtain ⟨id, -, rfl⟩ := List.mem_map.mp ha
      rfl
    rw [hnone]
    exact ⟨List.Pairwise.nil, by simp⟩
  | succ k ih =>
    obtain ⟨hsorted, hlt⟩ := ih
    rw [log, List.filterMap_append]
    constructor
    · refine List.pairwise_append.mpr ⟨hsorted, ?_, fun m hm n hn => ?_⟩
      · -- All items that this stage moves are of one set.
        refine List.pairwise_of_forall_mem_list fun m hm n hn => ?_
        rw [eq_of_mem_scannedFrom hm, eq_of_mem_scannedFrom hn]
      · rw [eq_of_mem_scannedFrom hn]
        exact (hlt m hm).le
    · intro m hm
      rcases List.mem_append.mp hm with hm | hm
      · exact Nat.lt_succ_of_lt (hlt m hm)
      · rw [eq_of_mem_scannedFrom hm]
        exact Nat.lt_succ_self k

/-- The sources of an item that were moved over tokens come in the order of their sets. -/
theorem Coherent.pairwise_sources (hg : g.Coherent) (k : Nat) (ref : ItemRef) :
    (((g.chartAt input k).sources ref).filterMap Source.scannedFrom?).Pairwise (· ≤ ·) := by
  obtain ⟨new, hnew, hsub⟩ :=
    (Chart.ofSize (input.size + 1) : Chart g.structural).exists_sources_applyAll
      (g.log input k) ref
  have hnone : (Chart.ofSize (input.size + 1) : Chart g.structural).sources ref = [] :=
    Chart.sources_of_none (Chart.item?_ofSize _ _)
  rw [hg.chartAt_eq, hnew, hnone, List.nil_append]
  have hlog := (pairwise_scannedFrom g input k).1
  have hfrom : (g.log input k).filterMap Addition.scannedFrom? =
      ((g.log input k).filterMap (·.source)).filterMap Source.scannedFrom? := by
    rw [List.filterMap_filterMap]
    rfl
  rw [hfrom] at hlog
  exact hlog.sublist (hsub.filterMap _)

/-! ### Lattices -/

def lastChart (g : Grammar) (input : Indexed) : Chart g.structural :=
  g.chartAt input (input.size + 1)

/-- A lattice has the tokens that a run reads: those of the symbols that are expected at
    a place in the last chart. They begin where skipping from the place ends. -/
structure Fits (g : Grammar) (input : Indexed) (l : Lattice) : Prop where
  start : ∀ k, ((g.lastChart input).setAt k).isEmpty = false → l.start k = g.skipEnd input k
  forward : l.Forward
  token : ∀ k s, s ∈ (g.lastChart input).expected k → ∀ j,
    l.token k s j ↔ (s, j) ∈ g.found input k (g.lastChart input)

theorem found_congr {c d : Chart g.structural} (h : c.setAt k = d.setAt k) :
    g.found input k c = g.found input k d := by
  rw [found, found, Chart.expected, Chart.expected, h]

/-- Until the last stage the set of a place is as in the last chart once it is
    closed. -/
theorem Coherent.setAt_close_chartAt (hg : g.Coherent) (hk : k ≤ input.size) :
    ((g.chartAt input k).close k).setAt k = (g.lastChart input).setAt k :=
  (hg.setAt_chartAt (Nat.lt_succ_of_le hk)).symm

theorem Fits.tokens {l : Lattice} (hl : g.Fits input l) (hg : g.Coherent)
    (hk : k ≤ input.size) :
    ((g.chartAt input k).close k).Tokens l k
      (g.found input k ((g.chartAt input k).close k)) := by
  have hset := hg.setAt_close_chartAt hk
  have hexpected : ((g.chartAt input k).close k).expected k = (g.lastChart input).expected k := by
    rw [Chart.expected, Chart.expected, hset]
  rw [found_congr hset]
  constructor
  · intro s j hf
    obtain ⟨hs, -, hcovers⟩ := hg.of_mem_found hf
    refine ⟨(hl.token k s hs j).mpr hf, ((Chart.mem_expected_iff _ _ _).mp hs).1, ?_⟩
    rw [Chart.close_eq, Chart.size_sets_applyAll, hg.size_sets_chartAt]
    exact Nat.lt_succ_of_le hcovers.le_size.2
  · intro i it s j hit hs hterm hj
    refine (hl.token k s ?_ j).mp hj
    rw [← hexpected]
    exact (Chart.mem_expected_iff _ _ _).mpr ⟨hterm, i, it, hit, hs⟩

/-- Where tokens are read it is known where they begin. -/
theorem Fits.start_eq {l : Lattice} (hl : g.Fits input l) (hg : g.Coherent)
    (hk : k ≤ input.size) :
    g.found input k ((g.chartAt input k).close k) = [] ∨ l.start k = g.skipEnd input k := by
  cases hempty : ((g.lastChart input).setAt k).isEmpty with
  | false => exact Or.inr (hl.start k hempty)
  | true =>
    left
    rw [found_congr (hg.setAt_close_chartAt hk)]
    exact found_of_isEmpty hg.lexicon hempty

/-- Before each stage the items of the sets before it are done. -/
theorem Fits.stage {l : Lattice} (hl : g.Fits input l) (hg : g.Coherent)
    (hk : k ≤ input.size + 1) : (g.chartAt input k).Stage [g.start] l k := by
  induction k with
  | zero =>
    have hpredicted : ((Chart.ofSize (input.size + 1) : Chart g.structural).applyAll
        ([g.start].flatMap (Chart.predictions g.structural 0))).Stage [g.start] l 0 :=
      Chart.stage_zero (Nat.succ_pos input.size)
    rw [chartAt, Chart.predict_eq]
    rwa [List.flatMap_singleton] at hpredicted
  | succ k ih =>
    have hle := Nat.le_of_succ_le_succ hk
    have hclosed := (ih (Nat.le_of_succ_le hk)).close hg.structural hl.forward
    have hnext := hclosed.next hl.forward (hl.tokens hg hle)
    rw [chartAt, passed]
    -- Where no token is found it does not matter where tokens begin.
    rcases hl.start_eq hg hle with hnone | hstart
    · rw [hnone] at hnext ⊢
      exact hnext
    · rwa [hstart] at hnext

/-- The last chart has all that its items call for. -/
theorem Fits.finished {l : Lattice} (hl : g.Fits input l) (hg : g.Coherent) :
    (g.lastChart input).Finished [g.start] l := by
  refine (hl.stage hg (Nat.le_refl _)).finished fun ref it hit => ?_
  have hlt := Chart.set_lt_of_item? hit
  rwa [hg.size_sets_chartAt] at hlt

/-- Every addition of the log is called for when it is made. -/
theorem Fits.callsInTurn_log {l : Lattice} (hl : g.Fits input l) (hg : g.Coherent)
    (hk : k ≤ input.size + 1) :
    Chart.CallsInTurn [g.start] l (Chart.ofSize (input.size + 1) : Chart g.structural)
      (g.log input k) := by
  induction k with
  | zero =>
    refine .of_forall fun a ha => ?_
    obtain ⟨id, hid, rfl⟩ := List.mem_map.mp ha
    exact ⟨[], .start List.mem_cons_self hid⟩
  | succ k ih =>
    have hle := Nat.le_of_succ_le_succ hk
    have hstage := hl.stage hg (Nat.le_of_succ_le hk)
    have hcalls : Chart.CallsInTurn [g.start] l _ _ := (hl.tokens hg hle).callsInTurn
    refine (ih (Nat.le_of_succ_le hk)).append ?_
    rw [← hg.chartAt_eq]
    have hwell := hstage.arises.wellFormed hg.structural hl.forward
    refine (hwell.callsInTurn hg.structural _ _ _).append ?_
    rw [← Chart.close_eq]
    rcases hl.start_eq hg hle with hnone | hstart
    · rw [hnone]
      exact .nil _
    · rwa [hstart] at hcalls

end Grammar

end Scannerless
