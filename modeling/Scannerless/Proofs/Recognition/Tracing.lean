import Mathlib.Data.List.Forall2
import Scannerless.Parser
import Scannerless.Proofs.Lexer.History
import Scannerless.Proofs.Recognition.Failure

/-!
# What is traced of a run

A lexer reports what it discards and what becomes of the matches that it finds, but only when it
looks for them: not when it remembers an answer. A run asks it once for each place that is
reached, so that what is discarded is reported in full for each of them. Places with the same
text behind them and the same expected lexemes share one report of matches.

## Main definitions

- `Grammar.Reports` — a report on matches of expected symbols.
- `Grammar.question?`, `Grammar.reportsAt` — what the stage of a place asks and reports.
- `Run.Told` — what was asked and reported before a stage.
- `Recognition.Tells` — the report on a place that was reached.

## Main statements

- `Run.Told.pass` — a pass reports what its stage calls for.
- `Recognition.Ended.mem_events_accepted_iff` — the accepted matches are the tokens of the run.
- `tracing_exact` — what is traced of a run.
-/

namespace Scannerless

open Text

/-! ### Reports on matches -/

def LexemeEvent.ofMatch (kind : TerminalKind) (i : Nat) (f : SymbolId × Nat) : LexemeEvent :=
  ⟨kind, f.1, i, f.2⟩

namespace Grammar

variable {g : Grammar} {input : Indexed} {i j : Nat} {targets : List SymbolId}
  {found : List (SymbolId × Nat)} {s : SymbolId}

/-- A match that ends at `j` does not count: with longest matching some expected symbol has a
    longer one. -/
def Rejects (g : Grammar) (input : Indexed) (i : Nat) (targets : List SymbolId) (j : Nat) :
    Prop :=
  g.longestMatch = true ∧ ∃ s ∈ targets, ∃ j', j < j' ∧ g.Covers input s i j'

/-- A report on the matches of expected symbols at an offset whose ends are as they should be.
    Each match is reported once, shorter ones first. -/
structure Reports (g : Grammar) (input : Indexed) (i : Nat) (targets : List SymbolId)
    (kind : TerminalKind) (fate : Nat → Prop) (events : List LexemeEvent) : Prop where
  mem_iff : ∀ e, e ∈ events ↔
    ∃ s j, e = ⟨kind, s, i, j⟩ ∧ s ∈ targets ∧ (i < j ∧ g.Covers input s i j) ∧ fate j
  ordered : (events.map fun e => (e.symbol, e.stop)).Pairwise (MatchBefore targets)

/-- With longest matching a match is outdone by longer ones among those that were found. -/
def outdone (g : Grammar) (found : List (SymbolId × Nat)) (f : SymbolId × Nat) : Bool :=
  g.longestMatch && found.any (f.2 < ·.2)

theorem split_eq (g : Grammar) (found : List (SymbolId × Nat)) :
    Lexer.split g found =
      (found.filter fun f => !g.outdone found f, found.filter (g.outdone found)) := by
  rw [Lexer.split]
  split
  next hlongest =>
    have hlast (f : SymbolId × Nat) (hf : f ∈ found) :
        (f.2 == (found.map (·.2)).foldl max 0) = !g.outdone found f := by
      rw [Bool.eq_iff_iff, beq_iff_eq, eq_foldl_max_iff (List.mem_map_of_mem hf),
        List.forall_mem_map]
      simp [outdone, hlongest]
    rw [List.partition_eq_filter_filter, List.filter_congr hlast]
    refine congrArg _ (List.filter_congr fun f hf => ?_)
    rw [Function.comp_apply, hlast f hf, Bool.not_not]
  next hany =>
    have hnone : g.outdone found = fun _ => false := by
      funext f
      rw [outdone, Bool.eq_false_iff.mpr hany, Bool.false_and]
    simp [hnone]

theorem Lists.outdone_iff (h : g.Lists input i targets found) (hij : i < j) :
    g.outdone found (s, j) = true ↔ g.Rejects input i targets j := by
  rw [outdone, Rejects, Bool.and_eq_true, List.any_eq_true]
  refine and_congr_right fun _ => ⟨?_, ?_⟩
  · rintro ⟨⟨s', j'⟩, hmem, hlt⟩
    obtain ⟨hs', -, hcovers⟩ := (h.mem_iff s' j').mp hmem
    exact ⟨s', hs', j', of_decide_eq_true hlt, hcovers⟩
  · rintro ⟨s', hs', j', hlt, hcovers⟩
    exact ⟨(s', j'), (h.mem_iff s' j').mpr ⟨hs', hij.trans hlt, hcovers⟩, decide_eq_true hlt⟩

/-- A part of the matches that was found makes a report. -/
theorem Lists.reports (h : g.Lists input i targets found) (kind : TerminalKind)
    {test : SymbolId × Nat → Bool} {fate : Nat → Prop}
    (htest : ∀ s j, i < j → (test (s, j) = true ↔ fate j)) :
    g.Reports input i targets kind fate
      ((found.filter test).map (LexemeEvent.ofMatch kind i)) where
  mem_iff e := by
    simp only [List.mem_map, List.mem_filter, Prod.exists, h.mem_iff]
    constructor
    · rintro ⟨s, j, ⟨⟨hs, hij, hcovers⟩, hfate⟩, rfl⟩
      exact ⟨s, j, rfl, hs, ⟨hij, hcovers⟩, (htest s j hij).mp hfate⟩
    · rintro ⟨s, j, rfl, hs, ⟨hij, hcovers⟩, hfate⟩
      exact ⟨s, j, ⟨⟨hs, hij, hcovers⟩, (htest s j hij).mpr hfate⟩, rfl⟩
  ordered := by
    rw [List.map_map]
    exact List.pairwise_map.mpr (h.ordered.filter _)

theorem Tiles.kind_eq {events : List LexemeEvent} (h : g.Tiles input i events j) :
    ∀ e ∈ events, e.kind = .discarded := by
  induction h with
  | stop => simp
  | go _ _ _ _ _ ih => exact List.forall_mem_cons.mpr ⟨rfl, ih⟩

theorem Tiles.covers {events : List LexemeEvent} (h : g.Tiles input i events j) :
    ∀ e ∈ events, g.Covers input e.symbol e.start e.stop := by
  induction h with
  | stop => simp
  | go _ _ hcovers _ _ ih => exact List.forall_mem_cons.mpr ⟨hcovers, ih⟩

/-- The matches that do not count, and those that do. -/
theorem Lists.reports_split (h : g.Lists input i targets found) :
    g.Reports input i targets .rejected (g.Rejects input i targets)
        ((Lexer.split g found).2.map (.ofMatch .rejected i)) ∧
      g.Reports input i targets .accepted (¬g.Rejects input i targets ·)
        ((Lexer.split g found).1.map (.ofMatch .accepted i)) := by
  rw [split_eq]
  refine ⟨h.reports _ fun s j hij => h.outdone_iff hij, h.reports _ fun s j hij => ?_⟩
  rw [Bool.not_eq_true', Bool.eq_false_iff, Ne, h.outdone_iff hij]

/-- What a lexer reports when it looks for some targets at an offset. -/
def verdicts (g : Grammar) (input : Indexed) (i : Nat) (targets : List SymbolId) :
    List LexemeEvent :=
  (Lexer.split g (g.endsAt input i targets)).2.map (.ofMatch .rejected i) ++
    (Lexer.split g (g.endsAt input i targets)).1.map (.ofMatch .accepted i)

theorem mem_verdicts_accepted_iff {i' : Nat} :
    (⟨.accepted, s, i', j⟩ : LexemeEvent) ∈ g.verdicts input i targets ↔
      i' = i ∧ (s, j) ∈ g.tokensAt input i targets := by
  have hrejected : (⟨.accepted, s, i', j⟩ : LexemeEvent) ∉
      (Lexer.split g (g.endsAt input i targets)).2.map (.ofMatch .rejected i) := by
    simp [LexemeEvent.ofMatch]
  rw [verdicts, List.mem_append, or_iff_right hrejected, List.mem_map]
  simp only [LexemeEvent.ofMatch, LexemeEvent.mk.injEq, true_and, Prod.exists]
  constructor
  · rintro ⟨s', j', hmem, rfl, rfl, rfl⟩
    exact ⟨rfl, hmem⟩
  · rintro ⟨rfl, hmem⟩
    exact ⟨s, j, hmem, rfl, rfl, rfl⟩

end Grammar

/-! ### Events of a lexer -/

namespace Lexer

variable {g : Grammar} {input : Indexed} {l : Lexer} {i : Nat} {expected : List SymbolId}

/-- What is skipped for the first time is reported. -/
theorem events_skip (h : l.skips[i]? = none) :
    (l.skip g input i).2.events.toList =
      l.events.toList ++ (g.skipFrom input (input.size - i) i).2 := by
  rw [skip, h]
  simp

theorem answer?_skip (i j : Nat) (targets : List SymbolId) :
    (l.skip g input i).2.answer? j targets = l.answer? j targets := by
  rw [skip]
  split <;> rfl

/-- What is looked for for the first time is reported. -/
theorem events_lexemes :
    (l.lexemes g input i expected).2.events.toList =
      l.events.toList ++ if (l.answer? i (ascending expected)).isSome then []
        else g.verdicts input i (ascending expected) := by
  rw [lexemes]
  simp only
  split
  next found hfound => simp [hfound]
  next hnone =>
    rw [hnone, Option.isSome_none, if_neg Bool.false_ne_true, remember, Array.toList_appendList]
    rfl

theorem isSome_answer?_lexemes {j : Nat} {targets : List SymbolId} :
    ((l.lexemes g input i expected).2.answer? j targets).isSome = true ↔
      (l.answer? j targets).isSome = true ∨ (j, targets) = (i, ascending expected) := by
  rw [lexemes]
  simp only
  split
  next found hfound =>
    refine (or_iff_left_of_imp fun hsame => ?_).symm
    obtain ⟨rfl, rfl⟩ := Prod.mk.inj hsame
    rw [hfound]
    rfl
  next =>
    rw [answer?_remember, Prod.mk.injEq]
    split
    next hsame => simp [hsame]
    next hother => simp [hother]

end Lexer

/-! ### Reports of stages -/

namespace Grammar

variable {g : Grammar} {input : Indexed} {k : Nat}

/-- The places before place `k` that are reached. -/
def placesBefore (g : Grammar) (input : Indexed) (k : Nat) : List Nat :=
  (List.range k).filter fun j => !((g.chartAt input j).setAt j).isEmpty

/-- What the stage of a place asks the lexer: where tokens begin, and which ones may. Nothing
    is asked if everything behind the place is skipped. -/
def question? (g : Grammar) (input : Indexed) (k : Nat) : Option (Nat × List SymbolId) :=
  if input.size ≤ g.skipEnd input k then none
  else some (g.skipEnd input k, ascending (((g.chartAt input k).close k).expected k))

/-- The questions of the stages before that of a place. -/
def questions (g : Grammar) (input : Indexed) (k : Nat) : List (Nat × List SymbolId) :=
  (g.placesBefore input k).filterMap (g.question? input)

/-- The report of a stage: what is discarded, and the verdicts if it asks something new. -/
def reportsAt (g : Grammar) (input : Indexed) (k : Nat) : List LexemeEvent :=
  (g.skipFrom input (input.size - k) k).2 ++
    ((g.question? input k).filter (· ∉ g.questions input k)).elim [] fun q =>
      g.verdicts input q.1 q.2

theorem mem_placesBefore_iff {j : Nat} :
    j ∈ g.placesBefore input k ↔ j < k ∧ ((g.chartAt input j).setAt j).isEmpty = false := by
  simp [placesBefore]

theorem placesBefore_of_isEmpty (h : ((g.chartAt input k).setAt k).isEmpty = true) :
    g.placesBefore input (k + 1) = g.placesBefore input k := by
  simp [placesBefore, List.range_succ, h]

theorem placesBefore_of_reached (h : ((g.chartAt input k).setAt k).isEmpty = false) :
    g.placesBefore input (k + 1) = g.placesBefore input k ++ [k] := by
  simp [placesBefore, List.range_succ, h]

theorem mem_questions_iff {q : Nat × List SymbolId} :
    q ∈ g.questions input k ↔ ∃ j ∈ g.placesBefore input k, g.question? input j = some q :=
  List.mem_filterMap

theorem questions_of_reached (h : ((g.chartAt input k).setAt k).isEmpty = false) :
    g.questions input (k + 1) = g.questions input k ++ (g.question? input k).toList := by
  rw [questions, questions, placesBefore_of_reached h, List.filterMap_append]
  rfl

/-- Some place is the first to ask a question. -/
theorem exists_first_question {q : Nat × List SymbolId}
    (hk : ((g.chartAt input k).setAt k).isEmpty = false) (h : g.question? input k = some q) :
    ∃ j ∈ g.placesBefore input (k + 1), g.question? input j = some q ∧
      q ∉ g.questions input j := by
  induction k using Nat.strongRecOn with
  | ind k ih =>
    by_cases hasked : q ∈ g.questions input k
    · obtain ⟨j, hj, hq⟩ := mem_questions_iff.mp hasked
      obtain ⟨hlt, hreached⟩ := mem_placesBefore_iff.mp hj
      obtain ⟨m, hm, hfirst⟩ := ih j hlt hreached hq
      obtain ⟨hle, hplace⟩ := mem_placesBefore_iff.mp hm
      exact ⟨m, mem_placesBefore_iff.mpr ⟨by omega, hplace⟩, hfirst⟩
    · exact ⟨k, mem_placesBefore_iff.mpr ⟨Nat.lt_succ_self k, hk⟩, h, hasked⟩

end Grammar

namespace Run

variable {g : Grammar} {input : Indexed} {k : Nat} {limit : Option Nat} {r r' : Run g}

/-- What was asked and reported before the stage of place `k`. -/
structure Told (input : Indexed) (k : Nat) (r : Run g) : Prop where
  answers : ∀ i targets,
    (r.lexer.answer? i targets).isSome = true ↔ (i, targets) ∈ g.questions input k
  events : r.lexer.events.toList = (g.placesBefore input k).flatMap (g.reportsAt input)

theorem Told.visit (ht : r.Told input k) (hr : r.Before input k)
    (hk : ((g.chartAt input k).setAt k).isEmpty = false)
    (h : r.visit limit input k = .ok r') : r'.Told input (k + 1) := by
  -- A place is visited once, so that the lexer never skipped from it before.
  have hfresh : r.lexer.skips[k]? = none := by
    rw [hr.skips, if_neg fun h => Nat.lt_irrefl k h.1]
  have hskip : (r.lexer.skip g input k).2.events.toList =
      r.lexer.events.toList ++ (g.skipFrom input (input.size - k) k).2 :=
    Lexer.events_skip hfresh
  have hplaces : (g.placesBefore input (k + 1)).flatMap (g.reportsAt input) =
      r.lexer.events.toList ++ g.reportsAt input k := by
    rw [Grammar.placesBefore_of_reached hk, List.flatMap_append, List.flatMap_singleton, ht.events]
  have hquestions := Grammar.questions_of_reached hk
  have hr' := visit_eq_ok h
  rw [hr.faithful.skip_eq k, hr.chart] at hr'
  split at hr'
  next hend =>
    have hnone : g.question? input k = none := if_pos hend
    subst hr'
    refine ⟨fun i targets => ?_, ?_⟩
    · rw [Lexer.answer?_skip, ht.answers, hquestions, hnone, Option.toList_none, List.append_nil]
    · rw [hskip, hplaces, Grammar.reportsAt, hnone]
      simp
  next hend =>
    have hsome : g.question? input k =
        some (g.skipEnd input k, ascending (((g.chartAt input k).close k).expected k)) :=
      if_neg hend
    subst hr'
    refine ⟨fun i targets => ?_, ?_⟩
    · rw [Lexer.isSome_answer?_lexemes, Lexer.answer?_skip, ht.answers, hquestions, hsome,
        List.mem_append, Option.toList_some, List.mem_singleton]
    · rw [Lexer.events_lexemes, Lexer.answer?_skip, hskip, hplaces, Grammar.reportsAt, hsome,
        List.append_assoc, Option.filter_some]
      by_cases hasked : (g.skipEnd input k,
          ascending (((g.chartAt input k).close k).expected k)) ∈ g.questions input k
      · rw [if_pos ((ht.answers _ _).mpr hasked), if_neg (by simpa using hasked),
          Option.elim_none]
      · rw [if_neg (mt (ht.answers _ _).mp hasked), if_pos (by simpa using hasked),
          Option.elim_some]

/-- A pass reports what its stage calls for. -/
theorem Told.pass (ht : r.Told input k) (hr : r.Before input k)
    (h : r.pass limit input k = .ok r') : r'.Told input (k + 1) := by
  rw [Run.pass, hr.chart] at h
  split at h
  next hempty =>
    obtain rfl := Except.ok.inj h
    have hplaces := Grammar.placesBefore_of_isEmpty hempty
    refine ⟨fun i targets => ?_, ?_⟩
    · rw [ht.answers, Grammar.questions, Grammar.questions, hplaces]
    · rw [ht.events, hplaces]
  next hempty => exact ht.visit hr (by simpa using hempty) h

end Run

theorem Grammar.told_of_runTo {g : Grammar} {input : Indexed} {k : Nat} {limit : Option Nat}
    {run : Run g} (hg : g.Lexicon) (h : g.runTo limit input k = .ok run) :
    run.Told input k := by
  induction k generalizing run with
  | zero =>
    obtain rfl := Run.eq_of_first (by simpa [runTo] using h)
    exact ⟨fun i targets => by simp [Lexer.initial, Lexer.answer?, questions, placesBefore], rfl⟩
  | succ k ih =>
    rw [runTo_succ, bind_eq_ok_iff] at h
    obtain ⟨before, hto, hpass⟩ := h
    exact (ih hto).pass (before_of_runTo hg hto) hpass

/-! ### Reports on places -/

namespace Recognition

variable {r : Recognition} {limit : Option Nat} {k : Nat}

/-- Tokens may begin behind a place, and no earlier place had the same text behind it and the
    same expected lexemes. -/
def AsksFirst (r : Recognition) (k : Nat) : Prop :=
  r.skip k < r.input.size ∧ ∀ j < k, r.Reached j → r.skip j = r.skip k →
    ¬∀ s, s ∈ r.run.chart.expected j ↔ s ∈ r.run.chart.expected k

/-- The report on a place: first what is discarded from there on. If the place is the first to
    ask for its tokens, the matches follow that are shorter than the longest one, and then the
    tokens. -/
def Tells (r : Recognition) (k : Nat) (events : List LexemeEvent) : Prop :=
  let targets := ascending (r.run.chart.expected k)
  let rejects := r.grammar.Rejects r.input (r.skip k) targets
  ∃ discarded rejected accepted, events = discarded ++ (rejected ++ accepted) ∧
    r.grammar.Tiles r.input k discarded (r.skip k) ∧
    (r.AsksFirst k →
      r.grammar.Reports r.input (r.skip k) targets .rejected rejects rejected ∧
      r.grammar.Reports r.input (r.skip k) targets .accepted (¬rejects ·) accepted) ∧
    (¬r.AsksFirst k → rejected = [] ∧ accepted = [])

theorem Ended.expected_eq (hr : r.Ended) (hk : k ≤ r.input.size) :
    ((r.grammar.chartAt r.input k).close k).expected k = r.run.chart.expected k := by
  rw [Chart.expected, Chart.expected, hr.coherent.setAt_close_chartAt hk, hr.chart_eq]

theorem Ended.mem_placesBefore_iff (hr : r.Ended) {m : Nat} (hm : m ≤ r.input.size + 1) :
    k ∈ r.grammar.placesBefore r.input m ↔ k < m ∧ r.Reached k := by
  rw [Grammar.mem_placesBefore_iff, hr.reached_iff]
  refine and_congr_right fun hk => ?_
  rw [and_iff_right (Nat.lt_of_lt_of_le hk hm)]

theorem Ended.question?_eq (hr : r.Ended) (hk : r.Reached k) :
    r.grammar.question? r.input k =
      if r.input.size ≤ r.skip k then none
      else some (r.skip k, ascending (r.run.chart.expected k)) := by
  rw [Grammar.question?, hr.expected_eq (hr.le_size_of_reached hk), hr.skip_eq hk]

theorem Ended.question?_eq_some_iff (hr : r.Ended) (hk : r.Reached k) {q : Nat × List SymbolId} :
    r.grammar.question? r.input k = some q ↔
      r.skip k < r.input.size ∧ q = (r.skip k, ascending (r.run.chart.expected k)) := by
  rw [hr.question?_eq hk]
  by_cases hend : r.input.size ≤ r.skip k
  · simp [hend]
  · simp [hend, eq_comm, Nat.lt_of_not_le hend]

theorem Ended.asksFirst_iff (hr : r.Ended) (hk : r.Reached k) :
    r.AsksFirst k ↔ r.skip k < r.input.size ∧
      (r.skip k, ascending (r.run.chart.expected k)) ∉ r.grammar.questions r.input k := by
  have hle := hr.le_size_of_reached hk
  refine and_congr_right fun hlt => ?_
  rw [Grammar.mem_questions_iff]
  constructor
  · rintro h ⟨j, hj, hquestion⟩
    obtain ⟨hlt, hreached⟩ := (hr.mem_placesBefore_iff (by omega)).mp hj
    obtain ⟨-, hsame⟩ := (hr.question?_eq_some_iff hreached).mp hquestion
    obtain ⟨hskip, hexpected⟩ := Prod.mk.inj hsame
    refine h j hlt hreached hskip.symm fun s => ?_
    rw [← mem_ascending, ← hexpected, mem_ascending]
  · intro h j hj hreached hskip hexpected
    refine h ⟨j, (hr.mem_placesBefore_iff (by omega)).mpr ⟨hj, hreached⟩, ?_⟩
    rw [hr.question?_eq_some_iff hreached, hskip, ascending_eq hexpected]
    exact ⟨hlt, rfl⟩

/-- The stage of a place that is reached reports what it should. -/
theorem Ended.tells_reportsAt (hr : r.Ended) (hk : r.Reached k) :
    r.Tells k (r.grammar.reportsAt r.input k) := by
  have htiles : r.grammar.Tiles r.input k _ (r.grammar.skipEnd r.input k) :=
    Grammar.tiles_skipFrom hr.coherent.lexicon hr.coherent.plainDiscards (by omega)
  rw [← hr.skip_eq hk] at htiles
  rw [Grammar.reportsAt, hr.question?_eq hk]
  by_cases hasks : r.AsksFirst k
  · obtain ⟨hlt, hnew⟩ := (hr.asksFirst_iff hk).mp hasks
    have hlists : r.grammar.Lists r.input (r.skip k) (ascending (r.run.chart.expected k)) _ :=
      Grammar.lists_endsAt hr.coherent.lexicon hr.coherent.expected_ne_char
        (sorted_ascending _).nodup
    rw [if_neg (Nat.not_le_of_lt hlt), Option.filter_some, if_pos (by simpa using hnew)]
    exact ⟨_, _, _, rfl, htiles, fun _ => hlists.reports_split, fun h => absurd hasks h⟩
  · have hnone : (if r.input.size ≤ r.skip k then none
        else some (r.skip k, ascending (r.run.chart.expected k))).filter
          (· ∉ r.grammar.questions r.input k) = none := by
      rw [hr.asksFirst_iff hk, not_and, Decidable.not_not] at hasks
      split
      next => rfl
      next hlt =>
        rw [Option.filter_some, if_neg (by simpa using hasks (Nat.lt_of_not_le hlt))]
    rw [hnone]
    exact ⟨_, [], [], rfl, htiles, fun h => absurd h hasks, fun _ => ⟨rfl, rfl⟩⟩

/-- All that a run reports are the reports of its places. -/
theorem Ended.exists_reports (hr : r.Ended)
    (hend : r.grammar.runTo limit r.input (r.input.size + 1) = .ok r.run) :
    ∃ places parts, places.Pairwise (· < ·) ∧ (∀ k, k ∈ places ↔ r.Reached k) ∧
      List.Forall₂ r.Tells places parts ∧ r.run.lexer.events.toList = parts.flatten := by
  have hmem (k : Nat) : k ∈ r.grammar.placesBefore r.input (r.input.size + 1) ↔ r.Reached k := by
    rw [hr.mem_placesBefore_iff le_rfl, and_iff_right_iff_imp]
    exact fun hk => Nat.lt_succ_of_le (hr.le_size_of_reached hk)
  refine ⟨r.grammar.placesBefore r.input (r.input.size + 1), _, List.pairwise_lt_range.filter _,
    hmem, ?_, (Grammar.told_of_runTo hr.coherent.lexicon hend).events⟩
  rw [List.forall₂_map_right_iff, List.forall₂_same]
  exact fun k hk => hr.tells_reportsAt ((hmem k).mp hk)

/-! ### Accepted matches -/

variable {s : SymbolId} {i j : Nat}

/-- The stage of a place reports the tokens that it looks for as accepted. -/
theorem Ended.mem_reportsAt_iff (hr : r.Ended) :
    (⟨.accepted, s, i, j⟩ : LexemeEvent) ∈ r.grammar.reportsAt r.input k ↔
      ∃ q, r.grammar.question? r.input k = some q ∧ q ∉ r.grammar.questions r.input k ∧
        i = q.1 ∧ (s, j) ∈ r.grammar.tokensAt r.input q.1 q.2 := by
  have htiles : r.grammar.Tiles r.input k (r.grammar.skipFrom r.input (r.input.size - k) k).2 _ :=
    Grammar.tiles_skipFrom hr.coherent.lexicon hr.coherent.plainDiscards (by omega)
  have hdiscarded : (⟨.accepted, s, i, j⟩ : LexemeEvent) ∉
      (r.grammar.skipFrom r.input (r.input.size - k) k).2 := fun hmem => by
    cases htiles.kind_eq _ hmem
  rw [Grammar.reportsAt, List.mem_append, or_iff_right hdiscarded]
  cases r.grammar.question? r.input k with
  | none => simp
  | some q =>
    rw [Option.filter_some]
    by_cases hasked : q ∈ r.grammar.questions r.input k
    · simp [hasked]
    · simp [hasked, Grammar.mem_verdicts_accepted_iff]

/-- The accepted matches are the tokens of the run. -/
theorem Ended.mem_events_accepted_iff (hr : r.Ended)
    (hend : r.grammar.runTo limit r.input (r.input.size + 1) = .ok r.run) :
    (⟨.accepted, s, i, j⟩ : LexemeEvent) ∈ r.run.lexer.events.toList ↔
      ∃ k, r.skip k = i ∧ r.lattice.token k s j := by
  rw [(Grammar.told_of_runTo hr.coherent.lexicon hend).events, List.mem_flatMap]
  constructor
  · rintro ⟨k, hk, hmem⟩
    obtain ⟨-, hreached⟩ := (hr.mem_placesBefore_iff le_rfl).mp hk
    obtain ⟨q, hq, -, rfl, htoken⟩ := hr.mem_reportsAt_iff.mp hmem
    obtain ⟨-, rfl⟩ := (hr.question?_eq_some_iff hreached).mp hq
    exact ⟨k, rfl, lattice_token_iff.mpr htoken⟩
  · rintro ⟨k, rfl, htoken⟩
    -- The place that reads the token need not be the one that looked for it.
    have hreached := reached_of_mem_expected (hr.expected_of_token htoken).1
    have hlt : r.skip k < r.input.size :=
      Nat.lt_of_not_le fun h => hr.not_token_of_size_le h htoken
    obtain ⟨m, hm, hq, hnew⟩ := Grammar.exists_first_question (hr.isEmpty_chartAt hreached)
      ((hr.question?_eq_some_iff hreached).mpr ⟨hlt, rfl⟩)
    obtain ⟨hle, hplace⟩ := Grammar.mem_placesBefore_iff.mp hm
    have hsize := hr.le_size_of_reached hreached
    exact ⟨m, Grammar.mem_placesBefore_iff.mpr ⟨by omega, hplace⟩,
      hr.mem_reportsAt_iff.mpr ⟨_, hq, hnew, rfl, lattice_token_iff.mp htoken⟩⟩

/-- An item moved over a lexeme between two offsets, as one of its sources says. -/
def Edge (r : Recognition) (s : SymbolId) (i j : Nat) : Prop :=
  ∃ ref source it, .scanned source i ∈ r.run.chart.sources ref ∧
    r.run.chart.item? source = some it ∧ r.grammar.structural.next? it = some s ∧ ref.set = j

/-- The sources say of all tokens, and of nothing else, that items moved over them. -/
theorem Ended.edge_iff (hr : r.Ended) :
    r.Edge s i j ↔ ∃ k, r.skip k = i ∧ r.lattice.token k s j := by
  constructor
  · rintro ⟨ref, source, it, hsrc, hit, hnext, rfl⟩
    obtain ⟨moved, hmoved⟩ := Chart.exists_item?_of_mem_sources hsrc
    obtain ⟨refs, hcalls⟩ := hr.finished.arises.calls_of_mem_sources hmoved hsrc
    obtain ⟨-, hstart, w, s', hw, hs', -, htoken, -⟩ := hcalls.of_scanned
    obtain rfl := Option.some_inj.mp (hit.symm.trans hw)
    obtain rfl := Option.some_inj.mp (hnext.symm.trans hs')
    exact ⟨source.set, hstart.symm, htoken⟩
  · rintro ⟨k, rfl, htoken⟩
    obtain ⟨hs, hterm⟩ := hr.expected_of_token htoken
    obtain ⟨-, m, it, hit, hnext⟩ := (Chart.mem_expected_iff _ _ _).mp hs
    obtain ⟨n, hn, hsrc⟩ := hr.finished.saturated _ _ (.scanned hit hnext hterm htoken)
    exact ⟨⟨j, n⟩, ⟨k, m⟩, it, hsrc _ rfl, hit, hnext, rfl⟩

/-- A match that is reported has its text between two places of the input. -/
theorem Tells.covers {events : List LexemeEvent} (h : r.Tells k events) :
    ∀ e ∈ events, r.grammar.Covers r.input e.symbol e.start e.stop := by
  obtain ⟨discarded, rejected, accepted, rfl, htiles, hfirst, hlater⟩ := h
  intro e he
  rcases List.mem_append.mp he with he | he
  · exact htiles.covers e he
  by_cases hasks : r.AsksFirst k
  · obtain ⟨hrejected, haccepted⟩ := hfirst hasks
    rcases List.mem_append.mp he with he | he
    · obtain ⟨s, j, rfl, -, ⟨-, hcovers⟩, -⟩ := (hrejected.mem_iff e).mp he
      exact hcovers
    · obtain ⟨s, j, rfl, -, ⟨-, hcovers⟩, -⟩ := (haccepted.mem_iff e).mp he
      exact hcovers
  · obtain ⟨rfl, rfl⟩ := hlater hasks
    cases he

theorem Ended.covers_of_mem_events (hr : r.Ended)
    (hend : r.grammar.runTo limit r.input (r.input.size + 1) = .ok r.run) :
    ∀ e ∈ r.run.lexer.events.toList, r.grammar.Covers r.input e.symbol e.start e.stop := by
  rw [(Grammar.told_of_runTo hr.coherent.lexicon hend).events]
  intro e he
  obtain ⟨k, hk, he⟩ := List.mem_flatMap.mp he
  exact (hr.tells_reportsAt ((hr.mem_placesBefore_iff le_rfl).mp hk).2).covers e he

end Recognition

theorem Grammar.Covers.slice?_eq {g : Grammar} {input : Indexed} {e : LexemeEvent}
    (h : g.Covers input e.symbol e.start e.stop) :
    slice? e.start e.stop input.chars = some (e.terminal g input).text.toList := by
  obtain ⟨text, hslice, -⟩ := h
  rw [LexemeEvent.terminal, Indexed.between_eq, between, hslice]
  simp

/-- What is traced of a run whose limit is kept. For each place that is reached, in ascending
    order, the matches that are discarded from there on are reported, up to where tokens begin.
    If no earlier place had the same text behind it and the same expected lexemes, it is reported
    what becomes of the matches of these. The text of an event is that of its span, and the
    accepted matches are the lexemes that the sources of the items say were moved over. -/
theorem tracing_exact {V : Type} [Semantic V] {p : Parser V} (hg : p.grammar.IsCompiled)
    (htrace : p.options.traceTerminals = true) {input : String} {r : Recognition}
    (hr : recognize p.grammar p.options.maxItems input = .ok r) :
    (r.grammar = p.grammar ∧ r.input = .ofList input.toList) ∧
    (p.parse input).terminals =
        r.run.lexer.events.toList.map (·.terminal p.grammar (.ofList input.toList)) ∧
    (∃ places parts, places.Pairwise (· < ·) ∧ (∀ k, k ∈ places ↔ r.Reached k) ∧
      List.Forall₂ r.Tells places parts ∧ r.run.lexer.events.toList = parts.flatten) ∧
    (∀ t ∈ (p.parse input).terminals,
      slice? t.start t.stop input.toList = some t.text.toList) ∧
    ∀ s i j, ⟨.accepted, s, i, j⟩ ∈ r.run.lexer.events.toList ↔ r.Edge s i j := by
  have hended := ended_of_recognize hg hr
  have hterminals : (p.parse input).terminals = r.terminals := by
    rw [Parser.parse, hr]
    show (p.evaluate r).terminals = _
    rw [Parser.evaluate, htrace]
    cases r.failure? <;> rfl
  obtain ⟨run, hend, rfl⟩ := recognizeIndexed_eq_ok_iff.mp hr
  refine ⟨⟨rfl, rfl⟩, hterminals, hended.exists_reports hend, ?_, fun s i j => ?_⟩
  · rw [hterminals, Recognition.terminals]
    intro t ht
    obtain ⟨e, he, rfl⟩ := List.mem_map.mp ht
    exact (hended.covers_of_mem_events hend e he).slice?_eq
  · rw [hended.mem_events_accepted_iff hend, hended.edge_iff]

/-- Words of a letter, of which the blank behind them may be a part. -/
def Definition.looseWords : Definition :=
  ⟨[.rule "text" ["word"], .rule "text" ["word", "text"], .lexeme "word" ["'a'"],
    .lexeme "word" ["'a'", "' '"], .discarded "' '"], "words"⟩

/-- The second word is looked for from behind the first one with its blank and without it, and is
    reported once. -/
theorem tracing_exact_looseWords :
    ∃ g r word, Definition.looseWords.compile = .ok g ∧ g.findSymbol? "word" = some word ∧
      recognize g none "a a" = .ok r ∧
      ((⟨g, .empty, ⟨true, false, none⟩⟩ : Parser Value).parse "a a").terminals =
        [⟨.accepted, "word", 0, 1, "a"⟩, ⟨.accepted, "word", 0, 2, "a "⟩,
          ⟨.discarded, "' '", 1, 2, " "⟩, ⟨.accepted, "word", 2, 3, "a"⟩] ∧
      (∃ places parts, places.Pairwise (· < ·) ∧ (∀ k, k ∈ places ↔ r.Reached k) ∧
        List.Forall₂ r.Tells places parts ∧ r.run.lexer.events.toList = parts.flatten) ∧
      r.Edge word 0 2 ∧ r.Edge word 2 3 ∧ ¬r.Edge word 1 2 := by
  have htest : Definition.looseWords.compile.toOption.any (fun g =>
      g.findSymbol? "word" == some 1 &&
      ((⟨g, .empty, ⟨true, false, none⟩⟩ : Parser Value).parse "a a").terminals ==
        [⟨.accepted, "word", 0, 1, "a"⟩, ⟨.accepted, "word", 0, 2, "a "⟩,
          ⟨.discarded, "' '", 1, 2, " "⟩, ⟨.accepted, "word", 2, 3, "a"⟩] &&
      (recognize g none "a a").toOption.any fun r => r.run.lexer.events.toList ==
        [⟨.accepted, 1, 0, 1⟩, ⟨.accepted, 1, 0, 2⟩, ⟨.discarded, 2, 1, 2⟩,
          ⟨.accepted, 1, 2, 3⟩]) = true := by
    decide +kernel
  obtain ⟨g, hg, htest⟩ := exists_eq_ok_of_any htest
  simp only [Bool.and_eq_true, beq_iff_eq] at htest
  obtain ⟨⟨hword, hterminals⟩, hrun⟩ := htest
  obtain ⟨r, hr, hevents⟩ := exists_eq_ok_of_any hrun
  obtain ⟨-, -, hreports, -, hedges⟩ := tracing_exact
    (p := (⟨g, .empty, ⟨true, false, none⟩⟩ : Parser Value)) (Or.inl ⟨_, hg⟩) rfl hr
  rw [beq_iff_eq.mp hevents] at hedges
  exact ⟨g, r, 1, hg, hword, hr, hterminals, hreports, (hedges 1 0 2).mp (by decide),
    (hedges 1 2 3).mp (by decide), mt (hedges 1 1 2).mpr (by decide)⟩

end Scannerless
