import Mathlib.Data.Nat.Find
import Scannerless.Proofs.Chart.ViablePrefix
import Scannerless.Proofs.Recognition.Restriction

/-!
# Failures

An input that is not recognized either ends too early, or is left at the last place that was
reached. What is expected there are the lexemes that the start symbol can go on with, and none of
them matches.

## Main statements

- `Recognition.Ended.furthest` — the place that a run remembers is the last one that was reached.
- `Recognition.Ended.mem_expected_iff_derives` — a lexeme is expected exactly if the start symbol
  derives it behind tokens up to the place.
- `failure_exact` — what is told about an input that is not recognized.
-/

namespace Scannerless

open Text

/-! ### The last place -/

namespace Run

variable {g : Grammar} {input : Indexed} {k : Nat} {limit : Option Nat} {r r' : Run g}

/-- Before the stage of place `k` a run remembers the last place before it that was reached. -/
structure Furthest (input : Indexed) (k : Nat) (r : Run g) : Prop where
  le : ∀ j < k, ((g.chartAt input j).setAt j).isEmpty = false → j ≤ r.furthest
  reached : r.furthest = 0 ∨
    r.furthest < k ∧ ((g.chartAt input r.furthest).setAt r.furthest).isEmpty = false

theorem furthest_of_visit (h : r.visit limit input k = .ok r') : r'.furthest = k := by
  rw [visit_eq_ok h]
  split <;> rfl

theorem Furthest.pass (hr : r.Furthest input k) (hbefore : r.Before input k)
    (h : r.pass limit input k = .ok r') : r'.Furthest input (k + 1) := by
  rw [Run.pass, hbefore.chart] at h
  split at h
  next hempty =>
    obtain rfl := Except.ok.inj h
    refine ⟨fun j hj hreached => ?_, hr.reached.imp_right fun h => ⟨Nat.lt_succ_of_lt h.1, h.2⟩⟩
    rcases Nat.lt_succ_iff_lt_or_eq.mp hj with hlt | rfl
    · exact hr.le j hlt hreached
    · rw [hempty] at hreached
      cases hreached
  next hempty =>
    have hk := furthest_of_visit h
    refine ⟨fun j hj _ => ?_, Or.inr ?_⟩
    · rw [hk]
      exact Nat.le_of_lt_succ hj
    · rw [hk]
      exact ⟨Nat.lt_succ_self k, by simpa using hempty⟩

end Run

theorem Grammar.furthest_of_runTo {g : Grammar} {input : Indexed} {k : Nat} {limit : Option Nat}
    {run : Run g} (hg : g.Lexicon) (h : g.runTo limit input k = .ok run) :
    run.Furthest input k := by
  induction k generalizing run with
  | zero =>
    obtain rfl := Run.eq_of_first (by simpa [runTo] using h)
    exact ⟨fun j hj => absurd hj (Nat.not_lt_zero j), Or.inl rfl⟩
  | succ k ih =>
    rw [runTo_succ, bind_eq_ok_iff] at h
    obtain ⟨before, hto, hpass⟩ := h
    exact (ih hto).pass (before_of_runTo hg hto) hpass

/-- A symbol of a structural right side that has no structural rules is a lexeme. -/
theorem Grammar.WellFormed.isLexeme_of_next? {g : Grammar} (hg : g.WellFormed) {it : Item}
    {s : SymbolId} (hnext : g.structural.next? it = some s)
    (hterm : g.structural.hasRules s = false) : g.isLexeme s = true := by
  have hs : s ∈ g.structural.rhs it.rule := List.mem_of_getElem? hnext
  obtain ⟨rule, hrule⟩ : ∃ rule, g.structural.rule? it.rule = some rule := by
    cases hrule : g.structural.rule? it.rule with
    | some rule => exact ⟨rule, rfl⟩
    | none =>
      rw [RuleTable.rule?] at hrule
      rw [RuleTable.rhs, hrule] at hs
      cases hs
  rw [RuleTable.rhs_of_rule? hrule] at hs
  rcases hg.structural_rhs _ rule hrule s hs with ⟨-, hdefines⟩ | ⟨hkind, -⟩
  · rw [hg.structural.hasRules_iff.mpr hdefines] at hterm
    cases hterm
  · exact isLexeme_iff.mpr hkind

namespace Recognition

variable {r : Recognition} {limit : Option Nat} {k j : Nat} {a : SymbolId}

theorem Ended.reached_iff (hr : r.Ended) :
    r.Reached k ↔
      k < r.input.size + 1 ∧ ((r.grammar.chartAt r.input k).setAt k).isEmpty = false := by
  refine ⟨fun hk => ⟨Nat.lt_succ_of_le (hr.le_size_of_reached hk), hr.isEmpty_chartAt hk⟩, ?_⟩
  rintro ⟨hlt, hk⟩
  rw [Reached, hr.chart_eq, ← hr.coherent.setAt_close_chartAt (Nat.le_of_lt_succ hlt)]
  rw [Bool.eq_false_iff] at hk ⊢
  exact fun h => hk (Chart.isEmpty_close_iff.mp h)

/-- The place that a run remembers is the last one that was reached. -/
theorem Ended.furthest (hr : r.Ended) (hstart : r.grammar.structural.Defines r.grammar.start)
    (hend : r.grammar.runTo limit r.input (r.input.size + 1) = .ok r.run) :
    r.Reached r.run.furthest ∧ ∀ k, r.Reached k → k ≤ r.run.furthest := by
  have hfurthest := Grammar.furthest_of_runTo hr.coherent.lexicon hend
  refine ⟨?_, fun k hk => ?_⟩
  · rcases hfurthest.reached with hzero | hreached
    · rw [hzero]
      exact hr.reached_zero hstart
    · exact hr.reached_iff.mpr hreached
  · obtain ⟨hlt, hk⟩ := hr.reached_iff.mp hk
    exact hfurthest.le k hlt hk

/-! ### What is expected -/

/-- A lexeme is expected at a place exactly if the start symbol derives it behind tokens that were
    read up to the place, with anything behind it. -/
theorem Ended.mem_expected_iff_derives (hr : r.Ended) (hg : r.grammar.WellFormed) :
    a ∈ r.run.chart.expected k ↔ r.grammar.isLexeme a = true ∧
      ∃ w rest, r.lattice.Chain w 0 k ∧
        r.grammar.structural.Derives [r.grammar.start] (w ++ a :: rest) := by
  have hi := hr.coherent.structural
  have hstart : ∀ s ∈ [r.grammar.start], r.grammar.structural.hasRules s = true := by
    intro s hs
    rw [List.mem_singleton.mp hs]
    exact hg.structural.hasRules_iff.mpr hg.start
  have hawaits (hterm : r.grammar.structural.hasRules a = false) :
      (∃ m it, r.run.chart.item? ⟨k, m⟩ = some it ∧ r.grammar.structural.next? it = some a) ↔
        ∃ w rest, r.lattice.Chain w 0 k ∧
          r.grammar.structural.Derives [r.grammar.start] (w ++ a :: rest) := by
    rw [hr.finished.exists_next?_iff hi hr.forward hterm hstart,
      ← RuleTable.leads_iff_derives hi fun h => (hr.expected_of_token h).2]
    simp
  rw [Chart.mem_expected_iff]
  constructor
  · rintro ⟨hterm, m, it, hit, hnext⟩
    exact ⟨hg.isLexeme_of_next? hnext hterm, (hawaits hterm).mp ⟨m, it, hit, hnext⟩⟩
  · rintro ⟨hlexeme, hderives⟩
    have hterm := hr.coherent.hasRules_eq_false (Grammar.isLexeme_iff.mp hlexeme)
    exact ⟨hterm, (hawaits hterm).mpr hderives⟩

/-- If something that is expected matches a text, some token is read: with longest matching it
    may be another one. -/
theorem Ended.exists_token_of_covers (hr : r.Ended) (ha : a ∈ r.run.chart.expected k)
    (hj : r.skip k < j) (h : r.grammar.Covers r.input a (r.skip k) j) :
    ∃ s j', r.lattice.token k s j' := by
  have ha := mem_ascending.mpr ha
  simp only [lattice_token_iff]
  cases hlongest : r.grammar.longestMatch with
  | false =>
    exact ⟨a, j, (Grammar.mem_tokensAt_iff hr.coherent.lexicon hlongest
      hr.coherent.expected_ne_char).mpr ⟨ha, hj, h⟩⟩
  | true =>
    classical
    let Found (j : Nat) : Prop := ∃ s ∈ ascending (r.run.chart.expected k),
      r.skip k < j ∧ r.grammar.Covers r.input s (r.skip k) j
    have hfound : Found (Nat.findGreatest Found r.input.size) :=
      Nat.findGreatest_spec h.le_size.2 ⟨a, ha, hj, h⟩
    obtain ⟨s, hs, hlt, hcovers⟩ := hfound
    refine ⟨s, _, (Grammar.mem_tokensAt_iff_longest hr.coherent.lexicon hlongest
      hr.coherent.expected_ne_char).mpr ⟨hs, ⟨hlt, hcovers⟩, fun s' hs' j' hlt' hcovers' => ?_⟩⟩
    exact Nat.le_findGreatest hcovers'.le_size.2 ⟨s', hs', hlt', hcovers'⟩

/-- What is expected at the last place that was reached matches nothing there. -/
theorem Ended.not_covers (hr : r.Ended) (hlast : ∀ j, r.Reached j → j ≤ k)
    (ha : a ∈ r.run.chart.expected k) (hj : r.skip k < j) :
    ¬r.grammar.Covers r.input a (r.skip k) j := by
  intro hcovers
  obtain ⟨s, j, htoken⟩ := hr.exists_token_of_covers ha hj hcovers
  have hle := hlast j (hr.reached_of_token htoken)
  exact absurd (hr.forward htoken) (Nat.not_lt_of_le hle)

end Recognition

/-- An input that is not recognized is left at the last place that was reached. If everything is
    skipped from there it ends too early. Else it is told where skipping ends, and which lexemes
    the start symbol goes on with behind tokens up to the place; none of them matches. -/
theorem failure_exact {g : Grammar} {limit : Option Nat} {input : String} {r : Recognition}
    {e : RunError} (hg : g.IsCompiled) (hr : recognize g limit input = .ok r)
    (he : r.failure? = some e) :
    (r.grammar = g ∧ r.input = .ofList input.toList) ∧
    ∃ f, r.Reached f ∧ (∀ k, r.Reached k → k ≤ f) ∧
      SkipsTo (r.grammar.Discarded r.input) f (r.skip f) ∧
      (r.input.size ≤ r.skip f → e = .incompleteParse) ∧
      (r.skip f < r.input.size → ∃ expected : List SymbolId,
        e = .noLexemeMatch (r.skip f) (locate r.input.chars (r.skip f))
          (expected.map r.grammar.name) ∧
        expected.Nodup ∧
        (∀ a, a ∈ expected ↔ r.grammar.isLexeme a = true ∧
          ∃ w rest, r.lattice.Chain w 0 f ∧
            r.grammar.structural.Derives [r.grammar.start] (w ++ a :: rest)) ∧
        ∀ a ∈ expected, ∀ j, r.skip f < j → ¬r.grammar.Covers r.input a (r.skip f) j) := by
  obtain ⟨run, hto, rfl⟩ := recognizeIndexed_eq_ok_iff.mp hr
  have hended : Recognition.Ended ⟨g, .ofList input.toList, run⟩ := ended_of_recognize hg hr
  obtain ⟨hreached, hlast⟩ := hended.furthest hg.wellFormed.start hto
  have hskip := hended.skip_eq hreached
  rw [Recognition.failure?] at he
  split at he
  next =>
    refine ⟨⟨rfl, rfl⟩, run.furthest, hreached, hlast, ?_, fun hend => ?_, fun hend => ?_⟩
    · rw [hskip]
      exact hg.coherent.skipsTo_skipEnd _
    · rw [if_pos hend, Option.some_inj] at he
      exact he.symm
    · rw [if_neg (Nat.not_le_of_lt hend), Option.some_inj] at he
      exact ⟨_, he.symm, Chart.nodup_expected _ _,
        fun a => hended.mem_expected_iff_derives hg.wellFormed,
        fun a ha j hj => hended.not_covers hlast ha hj⟩
  next => cases he

/-- A sum that goes on with something else is left behind its sign, where a letter may follow what
    was read. -/
theorem failure_exact_sums :
    ∃ g r, Definition.sums.compile = .ok g ∧ recognize g none "a+b" = .ok r ∧
      r.failure? = some (.noLexemeMatch 2 ⟨1, 3⟩ ["letter"]) ∧
      ∃ f a w rest, r.Reached f ∧ r.skip f = 2 ∧ r.grammar.name a = "letter" ∧
        r.lattice.Chain w 0 f ∧
        r.grammar.structural.Derives [r.grammar.start] (w ++ a :: rest) := by
  have htest : Definition.sums.compile.toOption.any (fun g =>
      (recognize g none "a+b").toOption.any fun r =>
        r.failure? == some (.noLexemeMatch 2 ⟨1, 3⟩ ["letter"])) = true := by
    decide +kernel
  obtain ⟨g, hg, htest⟩ := exists_eq_ok_of_any htest
  obtain ⟨r, hr, htest⟩ := exists_eq_ok_of_any htest
  have herror := beq_iff_eq.mp htest
  obtain ⟨-, f, hreached, -, -, hend, hfound⟩ := failure_exact (Or.inl ⟨_, hg⟩) hr herror
  have hlt : r.skip f < r.input.size :=
    Nat.lt_of_not_le fun hle => RunError.noConfusion (hend hle)
  obtain ⟨expected, hsame, -, hexpected, -⟩ := hfound hlt
  obtain ⟨hskip, -, hnames⟩ := RunError.noLexemeMatch.inj hsame
  obtain ⟨a, rfl, hname⟩ := List.map_eq_singleton_iff.mp hnames.symm
  obtain ⟨-, w, rest, hchain, hderives⟩ := (hexpected a).mp List.mem_cons_self
  exact ⟨g, r, hg, hr, herror, f, a, w, rest, hreached, hskip.symm, hname, hchain, hderives⟩

end Scannerless
