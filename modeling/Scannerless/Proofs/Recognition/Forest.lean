import Scannerless.Proofs.Recognition.Exactness

/-!
# The forest of a run

The chart of a run that came to its end holds every reading of the input and nothing
else. It never held an item twice, and a set stays as it is once the run has moved past
its place. The sources of an item are all ways to it, so that the trees that are read
through sources are those of the rules over the tokens that were read.

## Main definitions

- `Recognition.Ended` — the grammar is coherent and the run came to its end.
- `Recognition.lattice` — the tokens that were read.
- `Recognition.state` — the chart after some of the additions of the run.
- `Recognition.MovesOverItem`, `Recognition.MovesOverToken` — the two ways to an item.

## Main statements

- `ended_of_recognize` — runs with compiled grammars.
- `Recognition.Ended.mem_sources_iff` — the sources of an item are all ways to it.
- `recognize_forest` — the chart holds the whole forest and nothing else.
-/

namespace Scannerless

open Text

/-- No set has an item twice, no item begins behind its set, and only items that moved have
    sources. -/
structure Chart.Tidy {t : RuleTable} (c : Chart t) : Prop where
  nodup : ∀ k, (c.setAt k).items.Nodup
  origin_le : ∀ ref it, c.item? ref = some it → it.origin ≤ ref.set
  predicted : ∀ ref it, c.item? ref = some it → it.dot = 0 → c.sources ref = []

theorem Chart.Arises.tidy {t : RuleTable} {c : Chart t} {starts : List SymbolId} {l : Lattice}
    (hc : c.Arises starts l) (hi : t.Indexed) (hl : l.Forward) : c.Tidy where
  nodup k := (c.setAt k).nodup_items
  origin_le _ _ hit := (hc.admits hi hl hit).origin_le
  predicted _ _ hit hdot := hc.sources_eq_nil hit hdot

namespace Recognition

variable {r : Recognition} {l : Lattice} {ref : ItemRef} {k : Nat}

/-- The grammar is coherent, and the run came to its end. -/
structure Ended (r : Recognition) : Prop where
  coherent : r.grammar.Coherent
  before : r.run.Before r.input (r.input.size + 1)

/-- The tokens that were read: the lexer finds them where skipping from a place ends,
    among those that are expected at the place. -/
def lattice (r : Recognition) : Lattice :=
  ⟨r.skip, fun k s j => (s, j) ∈
    (Lexer.initial.lexemes r.grammar r.input (r.skip k) (r.run.chart.expected k)).1⟩

/-- The chart after the first additions of a run, `n` of them. -/
def state (r : Recognition) (n : Nat) : Chart r.grammar.structural :=
  (Chart.ofSize (r.input.size + 1)).applyAll
    ((r.grammar.log r.input (r.input.size + 1)).take n)

/-! ### What was read -/

theorem Ended.chart_eq (hr : r.Ended) : r.run.chart = r.grammar.lastChart r.input :=
  hr.before.chart

/-- Where a place was reached it is known where skipping from it ends. -/
theorem Ended.skip_eq (hr : r.Ended) (hk : (r.run.chart.setAt k).isEmpty = false) :
    r.skip k = r.grammar.skipEnd r.input k := by
  have hlt : k < r.input.size + 1 := by
    refine Nat.lt_of_not_le fun hle => ?_
    rw [hr.chart_eq, Chart.setAt_eq_empty] at hk
    · cases hk
    · rwa [Grammar.lastChart, hr.coherent.size_sets_chartAt]
  have hreached : ((r.grammar.chartAt r.input k).setAt k).isEmpty = false := by
    rw [hr.chart_eq, ← hr.coherent.setAt_close_chartAt (Nat.lt_succ_iff.mp hlt)] at hk
    rw [Bool.eq_false_iff] at hk ⊢
    exact fun h => hk (Chart.isEmpty_close_iff.mpr h)
  rw [skip, Std.TreeMap.getD_eq_getD_getElem?, hr.before.skips, if_pos ⟨hlt, hreached⟩]
  rfl

theorem Ended.le_skip (hr : r.Ended) (k : Nat) : k ≤ r.skip k := by
  cases hk : (r.run.chart.setAt k).isEmpty with
  | false =>
    rw [hr.skip_eq hk]
    exact Grammar.le_skipEnd k
  | true =>
    rw [skip, Std.TreeMap.getD_eq_getD_getElem?, hr.before.skips]
    split
    · exact Grammar.le_skipEnd k
    · exact Nat.le_refl k

theorem lattice_token_iff {s : SymbolId} {j : Nat} :
    r.lattice.token k s j ↔ (s, j) ∈ r.grammar.tokensAt r.input (r.skip k)
      (ascending (r.run.chart.expected k)) := by
  show (s, j) ∈ (Lexer.initial.lexemes r.grammar r.input (r.skip k)
    (r.run.chart.expected k)).1 ↔ _
  rw [(Lexer.faithful_initial r.grammar r.input).lexemes_eq]

/-- A token that was read was expected, so that it has no rules. -/
theorem Ended.expected_of_token (hr : r.Ended) {s : SymbolId} {j : Nat}
    (h : r.lattice.token k s j) :
    s ∈ r.run.chart.expected k ∧ r.grammar.structural.hasRules s = false := by
  have hs : s ∈ r.run.chart.expected k :=
    mem_ascending.mp (Grammar.covers_of_mem_tokensAt hr.coherent.lexicon
      hr.coherent.expected_ne_char (lattice_token_iff.mp h)).1
  exact ⟨hs, ((Chart.mem_expected_iff _ _ _).mp hs).1⟩

theorem Ended.fits_lattice (hr : r.Ended) : r.grammar.Fits r.input r.lattice where
  start k hk := hr.skip_eq (by rwa [hr.chart_eq])
  forward {k s j} hj := by
    rw [lattice_token_iff] at hj
    obtain ⟨-, hlt, -⟩ := Grammar.covers_of_mem_tokensAt hr.coherent.lexicon
      hr.coherent.expected_ne_char hj
    exact Nat.lt_of_le_of_lt (hr.le_skip k) hlt
  token k s hs j := by
    have hreached : (r.run.chart.setAt k).isEmpty = false := by
      rw [Bool.eq_false_iff]
      intro hempty
      rw [← hr.chart_eq, Chart.expected_of_isEmpty hempty] at hs
      cases hs
    rw [lattice_token_iff, hr.skip_eq hreached, Grammar.found, ← hr.chart_eq]
    split
    next hend =>
      refine iff_of_false (fun hj => ?_) List.not_mem_nil
      obtain ⟨-, hlt, hcovers⟩ := Grammar.covers_of_mem_tokensAt hr.coherent.lexicon
        hr.coherent.expected_ne_char hj
      have hle := hcovers.le_size
      omega
    next => rfl

theorem Ended.forward (hr : r.Ended) : r.lattice.Forward :=
  hr.fits_lattice.forward

/-- The tokens of an input: those that were read. Without longest matching all lexemes that
    derive a text may be taken for them. -/
def IsLattice (r : Recognition) (l : Lattice) : Prop :=
  l = r.lattice ∨ r.grammar.longestMatch = false ∧ l = r.grammar.lexemeLattice r.input

theorem Ended.fits (hr : r.Ended) (hl : r.IsLattice l) : r.grammar.Fits r.input l := by
  rcases hl with rfl | ⟨hlongest, rfl⟩
  · exact hr.fits_lattice
  · exact hr.coherent.fits_lexemeLattice hlongest

theorem Ended.finished_of_fits (hr : r.Ended) (hl : r.grammar.Fits r.input l) :
    r.run.chart.Finished [r.grammar.start] l := by
  rw [hr.chart_eq]
  exact hl.finished hr.coherent

theorem Ended.finished (hr : r.Ended) :
    r.run.chart.Finished [r.grammar.start] r.lattice :=
  hr.finished_of_fits hr.fits_lattice

theorem Ended.admits (hr : r.Ended) {it : Item} (hit : r.run.chart.item? ref = some it) :
    r.grammar.structural.Admits ref.set it :=
  hr.finished.arises.admits hr.coherent.structural hr.forward hit

/-! ### Sources -/

/-- The item at `source` moves over a symbol with rules that the complete item at
    `trigger` ends in set `place`. -/
structure MovesOverItem (r : Recognition) (it : Item) (place : Nat)
    (source trigger : ItemRef) : Prop where
  item : r.run.chart.item? source = some it
  moved : ∃ s id, r.grammar.structural.next? it = some s ∧
    r.grammar.structural.hasRules s = true ∧ r.grammar.structural.lhs? id = some s ∧
    r.run.chart.item? trigger = some ⟨id, (r.grammar.structural.rhs id).length, source.set⟩
  place_eq : trigger.set = place

/-- The item at `source` moves over a token that the lexer finds behind what is skipped
    from its set. The token ends at `place`. -/
structure MovesOverToken (r : Recognition) (it : Item) (place : Nat) (source : ItemRef) :
    Prop where
  item : r.run.chart.item? source = some it
  moved : ∃ s, r.grammar.structural.next? it = some s ∧
    (s, place) ∈ (Lexer.initial.lexemes r.grammar r.input (r.skip source.set)
      (r.run.chart.expected source.set)).1

theorem advanced_inj {v w : Item} (h : v.advanced = w.advanced) : v = w := by
  cases v
  cases w
  simpa [Item.advanced] using h

/-- The sources of an item with a symbol before its dot are all ways to it. -/
theorem Ended.mem_sources_iff (hr : r.Ended) {it : Item}
    (hit : r.run.chart.item? ref = some it.advanced) (src : Source) :
    src ∈ r.run.chart.sources ref ↔
      (∃ source trigger, src = .completed source trigger ∧
        r.MovesOverItem it ref.set source trigger) ∨
      ∃ source, src = .scanned source (r.skip source.set) ∧
        r.MovesOverToken it ref.set source := by
  have hi := hr.coherent.structural
  have hfinished := hr.finished
  constructor
  · intro hsrc
    obtain ⟨refs, hcalls⟩ := hfinished.arises.calls_of_mem_sources hit hsrc
    cases src with
    | completed source trigger =>
      obtain ⟨-, hset, w, ⟨id, dot, origin⟩, s, hw, hchild, hs, hlhs, hnext, horigin, hit'⟩ :=
        hcalls.of_completed
      obtain rfl := advanced_inj hit'
      obtain rfl : origin = source.set := horigin
      obtain rfl : dot = (r.grammar.structural.rhs id).length :=
        Nat.le_antisymm (hr.admits hchild).dot_le (RuleTable.next?_eq_none_iff.mp hnext)
      exact Or.inl ⟨source, trigger, rfl, hw,
        ⟨s, id, hs, hi.hasRules_of_lhs hlhs, hlhs, hchild⟩, hset⟩
    | scanned source start =>
      obtain ⟨-, rfl, w, s, hw, hs, -, hj, hit'⟩ := hcalls.of_scanned
      obtain rfl := advanced_inj hit'
      exact Or.inr ⟨source, rfl, hw, s, hs, hj⟩
  · rintro (⟨source, trigger, rfl, hitem, ⟨s, id, hs, -, hlhs, hchild⟩, hset⟩ |
      ⟨source, rfl, hitem, s, hs, htoken⟩)
    · refine hfinished.mem_sources hit ⟨[source, trigger], ?_⟩
      rw [← hset]
      exact .completed hitem hchild hs hlhs
        (RuleTable.next?_eq_none_iff.mpr (Nat.le_refl _)) rfl
    · exact hfinished.mem_sources hit
        ⟨_, .scanned hitem hs (hr.expected_of_token htoken).2 htoken⟩

/-! ### States of a run -/

theorem Ended.callsInTurn_log (hr : r.Ended) (hk : k ≤ r.input.size + 1) :
    Chart.CallsInTurn [r.grammar.start] r.lattice
      (Chart.ofSize (r.input.size + 1) : Chart r.grammar.structural)
      (r.grammar.log r.input k) :=
  hr.fits_lattice.callsInTurn_log hr.coherent hk

/-- Every state of a run arises, so that it is tidy. -/
theorem Ended.tidy_state (hr : r.Ended) (n : Nat) : (r.state n).Tidy := by
  have harises := (Chart.Arises.ofSize (r.input.size + 1)).applyAll
    ((hr.callsInTurn_log (Nat.le_refl _)).take n)
  exact harises.tidy hr.coherent.structural hr.forward

/-- The state with the additions before the stage of place `k`. -/
theorem Ended.state_length_log (hr : r.Ended) (hk : k ≤ r.input.size + 1) :
    r.state (r.grammar.log r.input k).length = r.grammar.chartAt r.input k := by
  obtain ⟨rest, hrest, -⟩ := hr.coherent.exists_log_eq_append r.input hk
  rw [state, hrest, List.take_left, ← hr.coherent.chartAt_eq]

/-- A set is as it stays in all states with the additions before the stage of a later
    place. -/
theorem Ended.setAt_state (hr : r.Ended) {j : Nat} (hj : j < k) (hk : k ≤ r.input.size + 1)
    {n : Nat} (hn : (r.grammar.log r.input k).length ≤ n) :
    (r.state n).setAt j = r.run.chart.setAt j := by
  obtain ⟨rest, hrest, hplace⟩ := hr.coherent.exists_log_eq_append r.input hk
  have hlater {as : List Addition} (has : ∀ a ∈ as, a ∈ rest) :
      ((r.grammar.chartAt r.input k).applyAll as).setAt j =
        (r.grammar.chartAt r.input k).setAt j :=
    Chart.setAt_applyAll fun a ha => (Nat.lt_of_lt_of_le hj (hplace a (has a ha))).ne'
  have hlast : (r.state n).setAt j = (r.grammar.chartAt r.input k).setAt j := by
    rw [state, hrest, List.take_append, List.take_of_length_le hn, Chart.applyAll_append,
      ← hr.coherent.chartAt_eq]
    exact hlater fun a ha => List.mem_of_mem_take ha
  rw [hlast, hr.chart_eq, Grammar.lastChart, hr.coherent.setAt_chartAt hj,
    hr.coherent.setAt_chartAt (Nat.lt_of_lt_of_le hj hk)]

/-! ### Roots -/

theorem isEmpty_of_item? {c : Chart r.grammar.structural} {it : Item}
    (hit : c.item? ref = some it) : (c.setAt ref.set).isEmpty = false := by
  refine Bool.eq_false_iff.mpr fun hempty => ?_
  rw [Chart.setAt_of_isEmpty hempty ref.index] at hit
  cases hit

/-- The roots are the complete items of the start symbol behind which everything is
    skipped. -/
theorem Ended.mem_roots_iff (hr : r.Ended) {root : ItemRef} :
    root ∈ r.run.roots ↔
      r.input.size ≤ r.skip root.set ∧ ∃ id, r.grammar.structural.lhs? id = some r.grammar.start ∧
        r.run.chart.item? root = some ⟨id, (r.grammar.structural.rhs id).length, 0⟩ := by
  rw [hr.fits_lattice.mem_roots_iff hr.coherent hr.before]
  refine and_congr_left ?_
  rintro ⟨id, -, hit⟩
  rw [hr.skip_eq (isEmpty_of_item? hit)]

/-- The trees that are read through sources are those of the rules. -/
theorem Ended.reading_iff_reads (hr : r.Ended) (hl : r.grammar.Fits r.input l) {it : Item}
    (hit : r.run.chart.item? ref = some it) (ts : List Tree) :
    r.run.chart.Reading ref ts ↔
      r.grammar.structural.Reads l ((r.grammar.structural.rhs it.rule).take it.dot)
        it.origin ref.set ts :=
  ((hr.finished_of_fits hl).closedTo ref.set).reading_iff_reads hr.coherent.structural hl.forward
    hit (Nat.le_refl _) ts

/-- A rule of the start symbol has a complete item over a place exactly if its right side
    spans the input up to there. -/
theorem Ended.exists_complete_iff (hr : r.Ended) (hl : r.grammar.Fits r.input l) {id : RuleId}
    (hid : r.grammar.structural.lhs? id = some r.grammar.start) (p : Nat) :
    (∃ m, r.run.chart.item? ⟨p, m⟩ = some ⟨id, (r.grammar.structural.rhs id).length, 0⟩) ↔
      r.grammar.structural.Spans l (r.grammar.structural.rhs id) 0 p := by
  rw [hr.chart_eq]
  exact hl.exists_root_iff hr.coherent hid p

theorem Ended.reading_root_iff (hr : r.Ended) (hl : r.grammar.Fits r.input l) {id : RuleId}
    (hit : r.run.chart.item? ref = some ⟨id, (r.grammar.structural.rhs id).length, 0⟩)
    (ts : List Tree) :
    r.run.chart.Reading ref ts ↔
      r.grammar.structural.Reads l (r.grammar.structural.rhs id) 0 ref.set ts := by
  rw [hr.reading_iff_reads hl hit, List.take_length]

/-- A rule of the start symbol that spans the input up to a place behind which everything is
    skipped has a root there. -/
theorem Ended.exists_root_of_spans (hr : r.Ended) (hl : r.grammar.Fits r.input l) {id : RuleId}
    (hid : r.grammar.structural.lhs? id = some r.grammar.start) {p : Nat}
    (hend : r.input.size ≤ r.skip p)
    (hspans : r.grammar.structural.Spans l (r.grammar.structural.rhs id) 0 p) :
    ∃ root ∈ r.run.roots, root.set = p ∧
      r.run.chart.item? root = some ⟨id, (r.grammar.structural.rhs id).length, 0⟩ := by
  obtain ⟨m, hm⟩ := (hr.exists_complete_iff hl hid p).mpr hspans
  exact ⟨⟨p, m⟩, hr.mem_roots_iff.mpr ⟨hend, id, hid, hm⟩, rfl, hm⟩

end Recognition

/-! ### Runs with compiled grammars -/

section

variable {g : Grammar} {limit : Option Nat} {input : String} {r : Recognition}

/-- A run with a coherent grammar that keeps within its limit comes to its end. -/
theorem Grammar.Coherent.ended (hg : g.Coherent) {input : Indexed}
    (hr : recognizeIndexed g limit input = .ok r) : r.grammar = g ∧ r.input = input ∧ r.Ended := by
  obtain ⟨run, hto, rfl⟩ := recognizeIndexed_eq_ok_iff.mp hr
  exact ⟨rfl, rfl, hg, Grammar.before_of_runTo hg.lexicon hto⟩

/-- Without a limit a run comes to its end. -/
theorem Grammar.Coherent.exists_ended (hg : g.Coherent) (cs : List Char) :
    ∃ r, recognizeChars g none cs = .ok r ∧ r.grammar = g ∧ r.input = .ofList cs ∧ r.Ended := by
  obtain ⟨r, hr⟩ := exists_recognizeIndexed_none g (.ofList cs)
  exact ⟨r, hr, hg.ended hr⟩

theorem ended_of_recognize (hg : g.IsCompiled) (hr : recognize g limit input = .ok r) :
    r.Ended :=
  (hg.coherent.ended hr).2.2

/-- The chart of a run holds the whole forest of readings and nothing else. Its states are
    tidy, and a set is as it stays once the run has moved past its place. At the end of the
    run the sources of an item are all ways to it, each once. The trees that are read off a
    root are those of its rule over the tokens of the input, and all such trees behind which
    everything is skipped are read off roots. -/
theorem recognize_forest (hg : g.IsCompiled) (hr : recognize g limit input = .ok r) :
    (r.grammar = g ∧ r.input = .ofList input.toList) ∧
    (∀ n, (r.state n).Tidy) ∧
    (∀ k ≤ r.input.size + 1, ∃ run n, r.grammar.runTo limit r.input k = .ok run ∧
      r.state n = run.chart ∧
      ∀ m ≥ n, ∀ j < k, (r.state m).setAt j = r.run.chart.setAt j) ∧
    (∀ ref it, r.run.chart.item? ref = some it.advanced →
      (r.run.chart.sources ref).Nodup ∧ ∀ src, src ∈ r.run.chart.sources ref ↔
        (∃ source trigger, src = .completed source trigger ∧
          r.MovesOverItem it ref.set source trigger) ∨
        ∃ source, src = .scanned source (r.skip source.set) ∧
          r.MovesOverToken it ref.set source) ∧
    ∀ l, r.IsLattice l →
      (∀ root ∈ r.run.roots, ∃ id, r.grammar.structural.lhs? id = some r.grammar.start ∧
        r.run.chart.item? root = some ⟨id, (r.grammar.structural.rhs id).length, 0⟩ ∧
        ∀ ts, r.run.chart.Reading root ts ↔
          r.grammar.structural.Reads l (r.grammar.structural.rhs id) 0 root.set ts) ∧
      ∀ id p ts, r.grammar.structural.lhs? id = some r.grammar.start →
        r.input.size ≤ r.skip p →
        r.grammar.structural.Reads l (r.grammar.structural.rhs id) 0 p ts →
        ∃ root ∈ r.run.roots, root.set = p ∧
          r.run.chart.item? root = some ⟨id, (r.grammar.structural.rhs id).length, 0⟩ ∧
          r.run.chart.Reading root ts := by
  have hended := ended_of_recognize hg hr
  refine ⟨?_, hended.tidy_state, fun k hk => ?_,
    fun ref it hit => ⟨r.run.chart.nodup_sources ref, hended.mem_sources_iff hit⟩,
    fun l hl => ⟨fun root hroot => ?_, fun id p ts hid hend hts => ?_⟩⟩
  · obtain ⟨last, -, rfl⟩ := recognizeIndexed_eq_ok_iff.mp hr
    exact ⟨rfl, rfl⟩
  · obtain ⟨last, hlast, rfl⟩ := recognizeIndexed_eq_ok_iff.mp hr
    obtain ⟨run, hrun⟩ := Grammar.exists_runTo_of_le hk hlast
    refine ⟨run, _, hrun, ?_, fun m hm j hj => hended.setAt_state hj hk hm⟩
    rw [hended.state_length_log hk, (Grammar.before_of_runTo hg.coherent.lexicon hrun).chart]
  · obtain ⟨-, id, hid, hit⟩ := hended.mem_roots_iff.mp hroot
    exact ⟨id, hid, hit, hended.reading_root_iff (hended.fits hl) hit⟩
  · obtain ⟨root, hroot, rfl, hit⟩ :=
      hended.exists_root_of_spans (hended.fits hl) hid hend ⟨ts, hts⟩
    exact ⟨root, hroot, rfl, hit, (hended.reading_root_iff (hended.fits hl) hit ts).mpr hts⟩

theorem exists_recognize_sums :
    ∃ g r, Definition.sums.compile = .ok g ∧ recognize g none "a+a+a" = .ok r ∧
      r.failure? = none := by
  have htest : Definition.sums.compile.toOption.any (fun g =>
      (recognize g none "a+a+a").toOption.any fun r => r.failure?.isNone) = true := by
    decide +kernel
  obtain ⟨g, hg, htest⟩ := exists_eq_ok_of_any htest
  obtain ⟨r, hr, htest⟩ := exists_eq_ok_of_any htest
  exact ⟨g, r, hg, hr, Option.isNone_iff_eq_none.mp htest⟩

/-- A sum of three letters is read off a root. -/
theorem recognize_forest_sums :
    ∃ g r, Definition.sums.compile = .ok g ∧ recognize g none "a+a+a" = .ok r ∧
      (∀ n, (r.state n).Tidy) ∧ ∃ root ∈ r.run.roots, ∃ ts, r.run.chart.Reading root ts := by
  obtain ⟨g, r, hg, hr, hok⟩ := exists_recognize_sums
  obtain ⟨root, hroot⟩ := Recognition.failure?_eq_none_iff.mp hok
  have hcompiled : g.IsCompiled := Or.inl ⟨_, hg⟩
  obtain ⟨-, htidy, -, -, htrees⟩ := recognize_forest hcompiled hr
  obtain ⟨id, hid, hit, hreads⟩ := (htrees r.lattice (Or.inl rfl)).1 root hroot
  have hended := ended_of_recognize hcompiled hr
  obtain ⟨ts, hts⟩ :=
    (hended.exists_complete_iff hended.fits_lattice hid root.set).mp ⟨root.index, hit⟩
  exact ⟨g, r, hg, hr, htidy, root, hroot, ts, (hreads ts).mpr hts⟩

end

end Scannerless
