import Mathlib.Data.List.Chain
import Mathlib.Logic.Relation
import Scannerless.Proofs.Chart.Inclusion
import Scannerless.Proofs.Grammar.WellFormed
import Scannerless.Proofs.Recognition.LongestTokens

/-!
# Longest matching restricts a run

With longest matching a run reads from a place exactly the longest ones of the lexemes that are
expected there. They all end at one place, so that the places that the run reaches follow one
another in a single chain. What is expected depends on what was read before, and yet nothing is
in the chart of the run that is not in the chart without longest matching.

## Main definitions

- `Run.scanned` — the tokens that a visit of a place reads.
- `Recognition.Reached`, `Recognition.Leads` — the places of a run and their successors.
- `Grammar.withLongestMatch` — a grammar with longest matching turned on or off.

## Main statements

- `Recognition.Ended.mem_scanned_iff` — the tokens that are read from a place.
- `Recognition.Ended.exists_chain` — the places of a run follow one another in one chain.
- `longest_match_restricts` — longest matching is exact and only restricts.
-/

namespace Scannerless

open Text

/-! ### What a visit reads -/

namespace Run

variable {g : Grammar} {input : Indexed} {k : Nat} {limit : Option Nat} {r r' : Run g}

/-- The tokens that a visit of a place reads: those that the lexer finds among what is expected
    once the set of the place is closed, unless everything behind the place is skipped. -/
def scanned (r : Run g) (input : Indexed) (k : Nat) : List (SymbolId × Nat) :=
  if input.size ≤ (r.lexer.skip g input k).1 then []
  else
    ((r.lexer.skip g input k).2.lexemes g input (r.lexer.skip g input k).1
      ((r.chart.close k).expected k)).1

/-- A visit closes the set of its place and moves its items over what it reads. -/
theorem chart_of_visit (h : r.visit limit input k = .ok r') :
    r'.chart =
      (r.chart.close k).scanAll k (r.lexer.skip g input k).1 (r.scanned input k) := by
  have hr' := visit_eq_ok h
  rw [scanned]
  split at hr'
  next hend =>
    rw [hr', if_pos hend]
    rfl
  next hend =>
    rw [hr', if_neg hend]

end Run

/-- An item is in the first set, or a token leads to its set from that of an item. -/
theorem Chart.Arises.exists_token {t : RuleTable} {c : Chart t} {starts : List SymbolId}
    {l : Lattice} (hc : c.Arises starts l) {ref : ItemRef} {it : Item}
    (hit : c.item? ref = some it) :
    ref.set = 0 ∨ ∃ source it' s, c.item? source = some it' ∧ l.token source.set s ref.set := by
  induction hc generalizing ref it with
  | ofSize count => simp at hit
  | grow _ ih => simpa using ih (by simpa using hit)
  | @apply c refs a _ ha ih =>
    -- What was there before is still there.
    have hold {ref : ItemRef} {it : Item} (hit : c.item? ref = some it) :
        ref.set = 0 ∨ ∃ source it' s, (c.apply a).item? source = some it' ∧
          l.token source.set s ref.set := by
      refine (ih hit).imp_right ?_
      rintro ⟨source, it', s, hsource, htoken⟩
      exact ⟨source, it', s, item?_add_of_some _ _ _ hsource, htoken⟩
    rcases item?_add_cases hit with hit | ⟨hset, rfl⟩
    · exact hold hit
    cases ha with
    | start => exact Or.inl hset
    | predicted hparent =>
      rw [hset]
      exact hold hparent
    | completed _ hchild =>
      rw [hset]
      exact hold hchild
    | @scanned source it' s j hsource _ _ htoken =>
      refine Or.inr ⟨source, it', s, item?_add_of_some _ _ _ hsource, ?_⟩
      rw [hset]
      exact htoken

namespace Recognition

/-- A place is reached if its set has items. -/
def Reached (r : Recognition) (k : Nat) : Prop :=
  (r.run.chart.setAt k).isEmpty = false

/-- A run that came to a place that was reached reads a token from there to place `j`. -/
def Leads (r : Recognition) (limit : Option Nat) (k j : Nat) : Prop :=
  r.Reached k ∧ ∃ before s, r.grammar.runTo limit r.input k = .ok before ∧
    (s, j) ∈ before.scanned r.input k

variable {r : Recognition} {limit : Option Nat} {k j : Nat} {s : SymbolId}

theorem reached_of_mem_expected (hs : s ∈ r.run.chart.expected k) : r.Reached k := by
  obtain ⟨-, i, it, hit, -⟩ := (Chart.mem_expected_iff _ _ _).mp hs
  exact isEmpty_of_item? hit

theorem Ended.le_size_of_reached (hr : r.Ended) (hk : r.Reached k) : k ≤ r.input.size := by
  refine Nat.le_of_lt_succ (Nat.lt_of_not_le fun hle => ?_)
  rw [Reached, hr.chart_eq, Chart.setAt_eq_empty] at hk
  · cases hk
  · rwa [Grammar.lastChart, hr.coherent.size_sets_chartAt]

theorem Ended.isEmpty_chartAt (hr : r.Ended) (hk : r.Reached k) :
    ((r.grammar.chartAt r.input k).setAt k).isEmpty = false := by
  have hle := hr.le_size_of_reached hk
  rw [Reached, hr.chart_eq, ← hr.coherent.setAt_close_chartAt hle] at hk
  rw [Bool.eq_false_iff] at hk ⊢
  exact fun h => hk (Chart.isEmpty_close_iff.mpr h)

/-- Where a lexeme is expected, the tokens of it are what it covers. -/
theorem Ended.lexeme_iff (hr : r.Ended) (hs : s ∈ r.run.chart.expected k) :
    (r.grammar.lexemeLattice r.input).token k s j ↔ r.grammar.Covers r.input s (r.skip k) j := by
  obtain ⟨id, hid⟩ := Grammar.exists_mem_rhs_of_mem_expected hs
  rw [hr.skip_eq_of_mem_expected hs]
  constructor
  · rintro ⟨-, -, hcovers⟩
    exact hcovers
  · rintro ⟨text, hslice, hmatches⟩
    obtain ⟨before, rest, -, -, hj⟩ := slice?_eq_some_iff.mp hslice
    have hne : byteLength text ≠ 0 := fun h =>
      hr.coherent.ne_nil_of_matches hid hmatches (Grammar.byteLength_eq_zero_iff.mp h)
    have hle : k ≤ r.grammar.skipEnd r.input k := Grammar.le_skipEnd k
    refine ⟨by omega, ?_, text, hslice, hmatches⟩
    exact Grammar.isLexeme_iff.mpr (hr.coherent.kind?_of_matches hid hmatches).1

/-- What a run reads from a place that was reached is what was read when it came to its end. -/
theorem Ended.mem_scanned_iff_token (hr : r.Ended) (hk : r.Reached k) {before : Run r.grammar}
    (hbefore : r.grammar.runTo limit r.input k = .ok before) :
    (s, j) ∈ before.scanned r.input k ↔ r.lattice.token k s j := by
  have hstage := Grammar.before_of_runTo hr.coherent.lexicon hbefore
  have hexpected : (before.chart.close k).expected k = r.run.chart.expected k := by
    rw [Chart.expected, Chart.expected, hstage.chart,
      hr.coherent.setAt_close_chartAt (hr.le_size_of_reached hk), hr.chart_eq]
  rw [Run.scanned, hstage.faithful.skip_eq k, hexpected, ← hr.skip_eq hk]
  split
  next hend => exact iff_of_false List.not_mem_nil (hr.not_token_of_size_le hend)
  next => rw [(hstage.faithful.skip k).lexemes_eq, lattice_token_iff]

/-- With longest matching a run reads the longest ones of the lexemes that are expected. -/
theorem Ended.mem_scanned_iff (hr : r.Ended) (hlongest : r.grammar.longestMatch = true)
    (hk : r.Reached k) {before : Run r.grammar}
    (hbefore : r.grammar.runTo limit r.input k = .ok before) :
    (s, j) ∈ before.scanned r.input k ↔ s ∈ r.run.chart.expected k ∧
      r.grammar.Covers r.input s (r.skip k) j ∧ ∀ s' ∈ r.run.chart.expected k, ∀ j',
        r.grammar.Covers r.input s' (r.skip k) j' → j' ≤ j := by
  rw [hr.mem_scanned_iff_token hk hbefore, hr.token_iff hlongest]
  refine and_congr_right fun hs => ?_
  rw [hr.lexeme_iff hs]
  refine and_congr_right fun _ => forall₂_congr fun s' hs' => ?_
  exact forall_congr' fun j' => by rw [hr.lexeme_iff hs']

/-! ### The chain of places -/

/-- A run that came to its end leads from place to place by the tokens that were read. -/
theorem Ended.leads_iff (hr : r.Ended)
    (hend : r.grammar.runTo limit r.input (r.input.size + 1) = .ok r.run) :
    r.Leads limit k j ↔ ∃ s, r.lattice.token k s j := by
  constructor
  · rintro ⟨hk, before, s, hbefore, hs⟩
    exact ⟨s, (hr.mem_scanned_iff_token hk hbefore).mp hs⟩
  · rintro ⟨s, hs⟩
    have hk : r.Reached k := reached_of_mem_expected (hr.expected_of_token hs).1
    obtain ⟨before, hbefore⟩ := Grammar.exists_runTo_of_le
      (Nat.le_succ_of_le (hr.le_size_of_reached hk)) hend
    exact ⟨hk, before, s, hbefore, (hr.mem_scanned_iff_token hk hbefore).mpr hs⟩

theorem Ended.reached_of_token (hr : r.Ended) (h : r.lattice.token k s j) : r.Reached j := by
  obtain ⟨hs, hterm⟩ := hr.expected_of_token h
  obtain ⟨-, i, it, hit, hnext⟩ := (Chart.mem_expected_iff _ _ _).mp hs
  obtain ⟨m, hm, -⟩ := hr.finished.saturated _ _ (.scanned hit hnext hterm h)
  exact isEmpty_of_item? hm

theorem Ended.reached_zero (hr : r.Ended) (hstart : r.grammar.structural.Defines r.grammar.start) :
    r.Reached 0 := by
  obtain ⟨id, rule, hrule, hlhs⟩ := hstart
  have hid : id ∈ r.grammar.structural.rulesFor r.grammar.start := by
    rw [hr.coherent.structural, RuleTable.lhs?_of_rule? hrule, hlhs]
  obtain ⟨m, hm, -⟩ := hr.finished.saturated _ _ (.start List.mem_cons_self hid)
  exact isEmpty_of_item? hm

/-- A place that is reached is the first one, or a token leads there. -/
theorem Ended.exists_token (hr : r.Ended) (hk : r.Reached k) :
    k = 0 ∨ ∃ j s, r.Reached j ∧ r.lattice.token j s k := by
  obtain ⟨it, hit⟩ := Chart.exists_item?_of_isEmpty_eq_false hk
  refine (hr.finished.arises.exists_token hit).imp_right ?_
  rintro ⟨source, it', s, hsource, htoken⟩
  exact ⟨source.set, s, isEmpty_of_item? hsource, htoken⟩

/-- With longest matching all tokens from a place end where the longest one does. -/
theorem Ended.stop_unique (hr : r.Ended) (hlongest : r.grammar.longestMatch = true)
    {s' : SymbolId} {j' : Nat} (h : r.lattice.token k s j) (h' : r.lattice.token k s' j') :
    j = j' := by
  obtain ⟨hexpected, htoken, hmax⟩ := (hr.token_iff hlongest).mp h
  obtain ⟨hexpected', htoken', hmax'⟩ := (hr.token_iff hlongest).mp h'
  exact Nat.le_antisymm (hmax' s hexpected j htoken) (hmax s' hexpected' j' htoken')

/-- With longest matching there is one place at most that a run leads to from a place. -/
theorem Ended.leads_unique (hr : r.Ended) (hlongest : r.grammar.longestMatch = true)
    (hend : r.grammar.runTo limit r.input (r.input.size + 1) = .ok r.run) {j' : Nat}
    (h : r.Leads limit k j) (h' : r.Leads limit k j') : j = j' := by
  obtain ⟨s, hs⟩ := (hr.leads_iff hend).mp h
  obtain ⟨s', hs'⟩ := (hr.leads_iff hend).mp h'
  exact hr.stop_unique hlongest hs hs'

/-- The places that a run comes by from a place on form a chain. -/
theorem Ended.exists_chain_from (hr : r.Ended) (hlongest : r.grammar.longestMatch = true)
    (hend : r.grammar.runTo limit r.input (r.input.size + 1) = .ok r.run) (k : Nat) :
    ∃ ps, (k :: ps).IsChain (r.Leads limit) ∧
      ∀ j, Relation.ReflTransGen (r.Leads limit) k j ↔ j ∈ k :: ps := by
  induction hsteps : r.input.size - k using Nat.strongRecOn generalizing k with
  | ind steps ih =>
    by_cases hnext : ∃ j, r.Leads limit k j
    · obtain ⟨j, hj⟩ := hnext
      obtain ⟨s, hs⟩ := (hr.leads_iff hend).mp hj
      have hlt := hr.forward hs
      have hle := hr.le_size_of_reached (hr.reached_of_token hs)
      obtain ⟨ps, hchain, hps⟩ := ih (r.input.size - j) (by omega) j rfl
      refine ⟨j :: ps, .cons_cons hj hchain, fun m => ?_⟩
      rw [Relation.ReflTransGen.cases_head_iff, List.mem_cons, ← hps, eq_comm]
      refine or_congr_right ⟨?_, fun hm => ⟨j, hj, hm⟩⟩
      rintro ⟨j', hj', hm⟩
      rwa [hr.leads_unique hlongest hend hj hj']
    · refine ⟨[], .singleton k, fun m => ?_⟩
      rw [Relation.ReflTransGen.cases_head_iff, List.mem_singleton, eq_comm]
      refine or_iff_left ?_
      rintro ⟨j, hj, -⟩
      exact hnext ⟨j, hj⟩

/-- With longest matching the places that a run reaches follow one another in one chain. -/
theorem Ended.exists_chain (hr : r.Ended) (hlongest : r.grammar.longestMatch = true)
    (hend : r.grammar.runTo limit r.input (r.input.size + 1) = .ok r.run)
    (hstart : r.grammar.structural.Defines r.grammar.start) :
    ∃ ps, (0 :: ps).IsChain (r.Leads limit) ∧ ∀ k, r.Reached k ↔ k ∈ 0 :: ps := by
  obtain ⟨ps, hchain, hps⟩ := hr.exists_chain_from hlongest hend 0
  refine ⟨ps, hchain, fun k => ?_⟩
  rw [← hps]
  constructor
  · intro hk
    induction k using Nat.strongRecOn with
    | ind k ih =>
      rcases hr.exists_token hk with rfl | ⟨j, s, hj, htoken⟩
      · exact .refl
      · exact (ih j (hr.forward htoken) hj).tail ((hr.leads_iff hend).mpr ⟨s, htoken⟩)
  · intro hk
    induction hk with
    | refl => exact hr.reached_zero hstart
    | tail _ hleads _ =>
      obtain ⟨s, hs⟩ := (hr.leads_iff hend).mp hleads
      exact hr.reached_of_token hs

end Recognition

/-! ### Without longest matching -/

namespace Grammar

variable {g : Grammar} {input : Indexed}

/-- A grammar with longest matching turned on or off. -/
def withLongestMatch (g : Grammar) (on : Bool) : Grammar :=
  { g with longestMatch := on }

theorem Coherent.withLongestMatch (hg : g.Coherent) (on : Bool) :
    (g.withLongestMatch on).Coherent where
  structural := hg.structural
  lexical := hg.lexical
  structural_lhs := hg.structural_lhs
  lexical_lhs := hg.lexical_lhs
  structural_rhs := hg.structural_rhs
  discards := hg.discards
  start := hg.start
  structural_nullable := hg.structural_nullable
  lexical_nullable := hg.lexical_nullable
  acyclic := hg.acyclic
  tiers := hg.tiers

/-- Where skipping ends does not depend on longest matching. -/
theorem Coherent.skipEnd_withLongestMatch (hg : g.Coherent) (on : Bool) (k : Nat) :
    (g.withLongestMatch on).skipEnd input k = g.skipEnd input k :=
  ((skipsTo_iff (hg.withLongestMatch on).lexicon (hg.withLongestMatch on).plainDiscards _ _).mp
    (hg.skipsTo_skipEnd k)).symm

theorem Coherent.lexemeLattice_withLongestMatch (hg : g.Coherent) (on : Bool) :
    (g.withLongestMatch on).lexemeLattice input = g.lexemeLattice input := by
  have hskip : (g.withLongestMatch on).skipEnd input = g.skipEnd input :=
    funext (hg.skipEnd_withLongestMatch on)
  rw [lexemeLattice, lexemeLattice, hskip]
  rfl

end Grammar

namespace Recognition

variable {r : Recognition} {limit : Option Nat} {k : Nat}

/-- The stage of a place that is reached closes its set and moves the items of the set over what
    is read. -/
theorem Ended.exists_stage (hr : r.Ended)
    (hend : r.grammar.runTo limit r.input (r.input.size + 1) = .ok r.run) (hk : r.Reached k) :
    ∃ before after, r.grammar.runTo limit r.input k = .ok before ∧
      r.grammar.runTo limit r.input (k + 1) = .ok after ∧
      after.chart = (before.chart.close k).scanAll k (r.skip k) (before.scanned r.input k) := by
  obtain ⟨after, hafter⟩ := Grammar.exists_runTo_of_le
    (Nat.succ_le_succ (hr.le_size_of_reached hk)) hend
  have hsteps := hafter
  rw [Grammar.runTo_succ, bind_eq_ok_iff] at hsteps
  obtain ⟨before, hbefore, hpass⟩ := hsteps
  have hstage := Grammar.before_of_runTo hr.coherent.lexicon hbefore
  refine ⟨before, after, hbefore, hafter, ?_⟩
  rw [Run.pass, hstage.chart, if_neg (by simp [hr.isEmpty_chartAt hk])] at hpass
  rw [Run.chart_of_visit hpass, hstage.faithful.skip_eq k, hr.skip_eq hk]

/-- The tokens that were read with longest matching are lexemes. -/
theorem Ended.sub_lexemeLattice (hr : r.Ended) (hlongest : r.grammar.longestMatch = true) :
    r.lattice.Sub (r.grammar.lexemeLattice r.input) := by
  intro k s j hj
  obtain ⟨hs, htoken, -⟩ := (hr.token_iff hlongest).mp hj
  exact ⟨htoken, (hr.skip_eq_of_mem_expected hs).symm⟩

end Recognition

section

variable {g : Grammar} {limit limit' : Option Nat} {input : Indexed} {run : Run g}
  {run' : Run (g.withLongestMatch false)}

/-- What is in the chart with longest matching is in the chart without it. -/
theorem within_of_longest (hr : (⟨g, input, run⟩ : Recognition).Ended)
    (hr' : (⟨g.withLongestMatch false, input, run'⟩ : Recognition).Ended)
    (hlongest : g.longestMatch = true) : run.chart.Within run'.chart := by
  have hfits : (g.withLongestMatch false).Fits input
      ((g.withLongestMatch false).lexemeLattice input) :=
    hr'.coherent.fits_lexemeLattice rfl
  have hfinished := hr'.finished_of_fits hfits
  rw [hr.coherent.lexemeLattice_withLongestMatch] at hfinished
  exact hr.finished.arises.within hfinished (hr.sub_lexemeLattice hlongest)

/-- What is recognized with longest matching is recognized without it. -/
theorem failure?_eq_none_of_longest (hr : (⟨g, input, run⟩ : Recognition).Ended)
    (hr' : (⟨g.withLongestMatch false, input, run'⟩ : Recognition).Ended)
    (hlongest : g.longestMatch = true)
    (hok : (⟨g, input, run⟩ : Recognition).failure? = none) :
    (⟨g.withLongestMatch false, input, run'⟩ : Recognition).failure? = none := by
  obtain ⟨root, hroot⟩ := Recognition.failure?_eq_none_iff.mp hok
  obtain ⟨hskip, id, hid, hit⟩ := hr.mem_roots_iff.mp hroot
  obtain ⟨root', hset, it, hit', hroot'⟩ := (within_of_longest hr hr' hlongest).item root _ hit
  obtain rfl := Option.some_inj.mp (hit.symm.trans hit')
  refine Recognition.failure?_eq_none_iff.mpr ⟨root', hr'.mem_roots_iff.mpr ⟨?_, id, hid, hroot'⟩⟩
  rw [hr.skip_eq (Recognition.isEmpty_of_item? hit)] at hskip
  rw [hr'.skip_eq (Recognition.isEmpty_of_item? hroot'), hset]
  rwa [hr.coherent.skipEnd_withLongestMatch]

end

/-- Longest matching is exact and only restricts a run. From a place that is reached the tokens
    are read that are the longest ones of the lexemes expected there, so that the places that are
    reached follow one another in one chain. All items and sources are in the chart without
    longest matching too, and so is what is recognized. -/
theorem longest_match_restricts {g : Grammar} (hg : g.IsCompiled) (hlongest : g.longestMatch = true)
    {limit : Option Nat} {input : String} {run : Run g}
    (hrun : recognize g limit input = .ok ⟨g, .ofList input.toList, run⟩) :
    let r : Recognition := ⟨g, .ofList input.toList, run⟩
    (∀ k, r.Reached k → ∃ before after, g.runTo limit r.input k = .ok before ∧
      g.runTo limit r.input (k + 1) = .ok after ∧
      after.chart = (before.chart.close k).scanAll k (r.skip k) (before.scanned r.input k) ∧
      ∀ a e, (a, e) ∈ before.scanned r.input k ↔ a ∈ run.chart.expected k ∧
        g.Covers r.input a (r.skip k) e ∧ ∀ a' ∈ run.chart.expected k, ∀ e',
          g.Covers r.input a' (r.skip k) e' → e' ≤ e) ∧
    (∀ k j j', r.Leads limit k j → r.Leads limit k j' → j = j') ∧
    (∃ ps, (0 :: ps).IsChain (r.Leads limit) ∧ ∀ k, r.Reached k ↔ k ∈ 0 :: ps) ∧
    (∀ limit' run', recognize (g.withLongestMatch false) limit' input =
        .ok ⟨g.withLongestMatch false, .ofList input.toList, run'⟩ →
      run.chart.Within run'.chart ∧ (r.failure? = none →
        (⟨g.withLongestMatch false, .ofList input.toList, run'⟩ : Recognition).failure? = none)) ∧
    ∃ run', recognize (g.withLongestMatch false) none input =
      .ok ⟨g.withLongestMatch false, .ofList input.toList, run'⟩ := by
  intro r
  have hr : r.Ended := ended_of_recognize hg hrun
  have hend : g.runTo limit r.input (r.input.size + 1) = .ok run := by
    obtain ⟨run₀, hto, heq⟩ := recognizeIndexed_eq_ok_iff.mp hrun
    cases heq
    exact hto
  refine ⟨fun k hk => ?_, fun k j j' => hr.leads_unique hlongest hend,
    hr.exists_chain hlongest hend hg.wellFormed.start, fun limit' run' hrun' => ?_, ?_⟩
  · obtain ⟨before, after, hbefore, hafter, hchart⟩ := hr.exists_stage hend hk
    exact ⟨before, after, hbefore, hafter, hchart,
      fun a e => hr.mem_scanned_iff hlongest hk hbefore⟩
  · have hcoherent := hg.coherent.withLongestMatch false
    obtain ⟨-, -, hr'⟩ := hcoherent.ended hrun'
    exact ⟨within_of_longest hr hr' hlongest, failure?_eq_none_of_longest hr hr' hlongest⟩
  · obtain ⟨r', hr'⟩ := exists_recognizeIndexed_none (g.withLongestMatch false)
      (.ofList input.toList)
    obtain ⟨run', hto, rfl⟩ := recognizeIndexed_eq_ok_iff.mp hr'
    exact ⟨run', hr'⟩

/-- Names, and a key that is spelled like one, of which the longest ones count. -/
def Definition.longestKeys : Definition :=
  ⟨[.longestMatch true, .rule "text" ["name"], .rule "text" ["key"], .lexeme "name" ["'i'"],
    .lexeme "name" ["'i'", "'f'"], .lexeme "key" ["'if'"]], "keys"⟩

/-- The shorter name is not read, and the chain of places leads over it. -/
theorem longest_match_restricts_longestKeys :
    ∃ g run run', Definition.longestKeys.compile = .ok g ∧
      recognize g none "if" = .ok ⟨g, .ofList "if".toList, run⟩ ∧
      recognize (g.withLongestMatch false) none "if" =
        .ok ⟨g.withLongestMatch false, .ofList "if".toList, run'⟩ ∧
      run.chart.Within run'.chart ∧
      (⟨g.withLongestMatch false, .ofList "if".toList, run'⟩ : Recognition).failure? = none ∧
      ∃ ps, (0 :: ps).IsChain ((⟨g, .ofList "if".toList, run⟩ : Recognition).Leads none) ∧
        2 ∈ 0 :: ps ∧ 1 ∉ 0 :: ps := by
  have htest : Definition.longestKeys.compile.toOption.any (fun g => g.longestMatch &&
      (recognize g none "if").toOption.any fun r => r.failure?.isNone &&
        (r.run.chart.setAt 1).isEmpty && !(r.run.chart.setAt 2).isEmpty) = true := by
    decide +kernel
  obtain ⟨g, hg, htest⟩ := exists_eq_ok_of_any htest
  rw [Bool.and_eq_true] at htest
  obtain ⟨hlongest, htest⟩ := htest
  obtain ⟨r, hr, htest⟩ := exists_eq_ok_of_any htest
  obtain ⟨run, -, rfl⟩ := recognizeIndexed_eq_ok_iff.mp hr
  simp only [Bool.and_eq_true, Bool.not_eq_true'] at htest
  obtain ⟨⟨hok, hone⟩, htwo⟩ := htest
  obtain ⟨-, -, ⟨ps, hchain, hps⟩, hrestricts, run', hrun'⟩ :=
    longest_match_restricts (Or.inl ⟨_, hg⟩) hlongest hr
  obtain ⟨hwithin, haccepts⟩ := hrestricts none run' hrun'
  refine ⟨g, run, run', hg, hr, hrun', hwithin, haccepts (Option.isNone_iff_eq_none.mp hok), ps,
    hchain, (hps 2).mp htwo, fun hmem => ?_⟩
  have hreached := (hps 1).mpr hmem
  rw [Recognition.Reached, hone] at hreached
  cases hreached

end Scannerless
