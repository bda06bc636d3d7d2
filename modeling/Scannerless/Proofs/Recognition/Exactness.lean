import Scannerless.Proofs.Grammar.Compiled
import Scannerless.Proofs.Recognition.Log

/-!
# Recognition is exact

An input is recognized exactly if the start symbol derives lexemes that cover it: each
lexeme derives a part of the input behind what is skipped, and behind the last one
everything is discarded. The complete items that a run ends with are those of the places
where such lexemes end.

## Main definitions

- `Grammar.Path` — lexemes that follow one another over an input.
- `Grammar.Completes` — lexemes that cover an input.
- `Grammar.lexemeLattice` — the lexemes between the places of an input.

## Main statements

- `Grammar.Coherent.fits_lexemeLattice` — without longest matching a run reads all
  lexemes that derive a text.
- `recognize_exact` — an input is recognized exactly if derived lexemes cover it.
-/

namespace Scannerless

open Text

namespace Chart

variable {t : RuleTable} {c : Chart t}

theorem mem_completed_iff {k : Nat} {s : SymbolId} {origin : Nat} {ref : ItemRef} :
    ref ∈ c.completed k s origin ↔
      ref.set = k ∧ ∃ it, c.item? ref = some it ∧ it.origin = origin ∧ t.next? it = none ∧
        t.lhs? it.rule = some s := by
  rw [completed, List.mem_map]
  simp only [StateSet.select, selectItems, List.mem_filter, Bool.and_eq_true, beq_iff_eq,
    RuleTable.isComplete_iff]
  constructor
  · rintro ⟨⟨it, i⟩, ⟨hmem, ⟨horigin, hnext⟩, hlhs⟩, rfl⟩
    rw [List.mk_mem_zipIdx_iff_getElem?, ← StateSet.item?_eq] at hmem
    exact ⟨rfl, it, hmem, horigin, hnext, hlhs⟩
  · rintro ⟨rfl, it, hit, horigin, hnext, hlhs⟩
    refine ⟨(it, ref.index), ⟨?_, ⟨horigin, hnext⟩, hlhs⟩, rfl⟩
    rw [List.mk_mem_zipIdx_iff_getElem?, ← StateSet.item?_eq]
    exact hit

end Chart

namespace Grammar

variable {g : Grammar} {input : Indexed} {l : Lattice}

/-! ### Roots -/

/-- The complete items that a run ends with are those of the start symbol over places
    behind which everything is discarded. -/
theorem Coherent.mem_roots_iff (hg : g.Coherent) {run : Run g}
    (hrun : run.Before input (input.size + 1)) {root : ItemRef} :
    root ∈ run.roots ↔
      input.size ≤ g.skipEnd input root.set ∧ ∃ it, (g.lastChart input).item? root = some it ∧
        it.origin = 0 ∧ g.structural.next? it = none ∧
        g.structural.lhs? it.rule = some g.start := by
  have hitem (k : Nat) (hk : k ≤ input.size) (ref : ItemRef) (hset : ref.set = k) :
      ((g.chartAt input k).close k).item? ref = (g.lastChart input).item? ref := by
    rw [Chart.item?, Chart.item?, hset, hg.setAt_close_chartAt hk]
  rw [hrun.roots, List.mem_flatMap]
  constructor
  · rintro ⟨k, hk, hroot⟩
    have hk : k ≤ input.size := Nat.lt_succ_iff.mp (List.mem_range.mp hk)
    rw [rootsAt] at hroot
    split at hroot
    next hend =>
      obtain ⟨rfl, it, hit, h⟩ := Chart.mem_completed_iff.mp hroot
      exact ⟨hend, it, by rwa [← hitem _ hk root rfl], h⟩
    next => cases hroot
  · rintro ⟨hend, it, hit, h⟩
    have hlt := Chart.set_lt_of_item? hit
    rw [lastChart, hg.size_sets_chartAt] at hlt
    refine ⟨root.set, List.mem_range.mpr hlt, ?_⟩
    rw [rootsAt, if_pos hend]
    refine Chart.mem_completed_iff.mpr ⟨rfl, it, ?_, h⟩
    rwa [hitem _ (Nat.lt_succ_iff.mp hlt) root rfl]

/-- In other words, a root is an item with the dot at the end of a rule of the start
    symbol. -/
theorem Fits.mem_roots_iff (hl : g.Fits input l) (hg : g.Coherent) {run : Run g}
    (hrun : run.Before input (input.size + 1)) {root : ItemRef} :
    root ∈ run.roots ↔
      input.size ≤ g.skipEnd input root.set ∧ ∃ id, g.structural.lhs? id = some g.start ∧
        run.chart.item? root = some ⟨id, (g.structural.rhs id).length, 0⟩ := by
  rw [hg.mem_roots_iff hrun, hrun.chart]
  refine and_congr_right fun _ => ⟨?_, ?_⟩
  · rintro ⟨⟨id, dot, origin⟩, hit, horigin, hnext, hlhs⟩
    obtain rfl : origin = 0 := horigin
    have hle := ((hl.finished hg).arises.admits hg.structural hl.forward hit).dot_le
    obtain rfl : dot = (g.structural.rhs id).length :=
      Nat.le_antisymm hle (RuleTable.next?_eq_none_iff.mp hnext)
    exact ⟨id, hlhs, hit⟩
  · rintro ⟨id, hlhs, hit⟩
    exact ⟨_, hit, rfl, RuleTable.next?_eq_none_iff.mpr (Nat.le_refl _), hlhs⟩

/-- A rule of the start symbol has a complete item over a place exactly if its right side
    spans the input up to there. -/
theorem Fits.exists_root_iff (hl : g.Fits input l) (hg : g.Coherent) {id : RuleId}
    (hid : g.structural.lhs? id = some g.start) (p : Nat) :
    (∃ m, (g.lastChart input).item? ⟨p, m⟩ = some ⟨id, (g.structural.rhs id).length, 0⟩) ↔
      g.structural.Spans l (g.structural.rhs id) 0 p :=
  ((hl.finished hg).closedTo p).exists_complete_iff hg.structural hl.forward
    List.mem_cons_self ((hg.structural _ _).mpr hid) (Nat.le_refl p)

/-! ### Paths of lexemes -/

/-- Lexemes that follow one another from place to place. Each derives the text from where
    skipping ends to the place behind it. -/
inductive Path (g : Grammar) (input : Indexed) : List SymbolId → Nat → Nat → Prop where
  | nil (p : Nat) : Path g input [] p p
  | cons {a : SymbolId} {as : List SymbolId} {p i q r : Nat} (hlexeme : g.isLexeme a = true)
      (hskip : SkipsTo (g.Discarded input) p i) (hcovers : g.Covers input a i q) (hpq : p < q)
      (hrest : Path g input as q r) : Path g input (a :: as) p r

/-- Lexemes that lead from the beginning of an input to a place behind which everything is
    discarded. -/
def Completes (g : Grammar) (input : Indexed) (as : List SymbolId) (p : Nat) : Prop :=
  g.Path input as 0 p ∧ ∃ q, SkipsTo (g.Discarded input) p q ∧ input.size ≤ q

def lexemeLattice (g : Grammar) (input : Indexed) : Lattice :=
  ⟨g.skipEnd input, fun k s j =>
    k < j ∧ g.isLexeme s = true ∧ g.Covers input s (g.skipEnd input k) j⟩

theorem Coherent.skipsTo_skipEnd (hg : g.Coherent) (p : Nat) :
    SkipsTo (g.Discarded input) p (g.skipEnd input p) :=
  (skipsTo_iff hg.lexicon hg.plainDiscards _ _).mpr rfl

theorem Coherent.path_iff_chain (hg : g.Coherent) {as : List SymbolId} {p q : Nat} :
    g.Path input as p q ↔ (g.lexemeLattice input).Chain as p q := by
  constructor
  · intro h
    induction h with
    | nil p => exact .nil p
    | cons hlexeme hskip hcovers hpq _ ih =>
      obtain rfl := (skipsTo_iff hg.lexicon hg.plainDiscards _ _).mp hskip
      exact .cons ⟨hpq, hlexeme, hcovers⟩ ih
  · intro h
    induction h with
    | nil p => exact .nil p
    | cons htoken _ ih =>
      obtain ⟨hpq, hlexeme, hcovers⟩ := htoken
      exact .cons hlexeme (hg.skipsTo_skipEnd _) hcovers hpq ih

theorem Coherent.completes_iff (hg : g.Coherent) {as : List SymbolId} {p : Nat} :
    g.Completes input as p ↔
      (g.lexemeLattice input).Chain as 0 p ∧ input.size ≤ g.skipEnd input p := by
  rw [Completes, hg.path_iff_chain]
  refine and_congr_right fun _ => ⟨?_, ?_⟩
  · rintro ⟨q, hskip, hend⟩
    rwa [(skipsTo_iff hg.lexicon hg.plainDiscards _ _).mp hskip] at hend
  · intro hend
    exact ⟨_, hg.skipsTo_skipEnd p, hend⟩

/-- Without longest matching a run reads all lexemes that derive a text. -/
theorem Coherent.fits_lexemeLattice (hg : g.Coherent) (hlongest : g.longestMatch = false) :
    g.Fits input (g.lexemeLattice input) where
  start _ _ := rfl
  forward h := h.1
  token k s hs j := by
    obtain ⟨id, hid⟩ := exists_mem_rhs_of_mem_expected hs
    constructor
    · rintro ⟨-, -, hcovers⟩
      -- A lexeme is not empty, so that there is some text behind what is skipped.
      have hle := hcovers.le_size
      obtain ⟨text, hslice, hmatches⟩ := hcovers
      obtain ⟨before, rest, hchars, hlength, hj⟩ := slice?_eq_some_iff.mp hslice
      have hpos : byteLength text ≠ 0 :=
        fun h => hg.ne_nil_of_matches hid hmatches (byteLength_eq_zero_iff.mp h)
      rw [found, if_neg (by omega)]
      refine (mem_tokensAt_iff hg.lexicon hlongest hg.expected_ne_char).mpr
        ⟨mem_ascending.mpr hs, by omega, text, hslice, hmatches⟩
    · intro hf
      obtain ⟨-, hlt, text, hslice, hmatches⟩ := hg.of_mem_found hf
      refine ⟨Nat.lt_of_le_of_lt (le_skipEnd k) hlt, ?_, text, hslice, hmatches⟩
      exact isLexeme_iff.mpr (hg.kind?_of_matches hid hmatches).1

/-- A list of symbols spans two places exactly if it derives the lexemes of a path. -/
theorem Coherent.spans_iff_exists_path (hg : g.Coherent) {ss : List SymbolId} {p q : Nat} :
    g.structural.Spans (g.lexemeLattice input) ss p q ↔
      ∃ as, g.structural.Derives ss as ∧ (g.lexemeLattice input).Chain as p q := by
  rw [RuleTable.spans_iff_derives hg.structural]
  constructor
  · rintro ⟨as, hderives, -, hchain⟩
    exact ⟨as, hderives, hchain⟩
  · rintro ⟨as, hderives, hchain⟩
    refine ⟨as, hderives, ?_, hchain⟩
    clear hderives
    induction hchain with
    | nil => simp
    | cons htoken _ ih =>
      refine List.forall_mem_cons.mpr ⟨?_, ih⟩
      exact hg.hasRules_eq_false (isLexeme_iff.mp htoken.2.1)

/-- The start symbol derives what one of its rules derives, as it is no lexeme itself. -/
theorem Coherent.exists_rule_of_completes (hg : g.Coherent) {as : List SymbolId} {p : Nat}
    (hderives : g.structural.Derives [g.start] as) (hcompletes : g.Completes input as p) :
    ∃ id, g.structural.lhs? id = some g.start ∧ g.structural.Derives (g.structural.rhs id) as := by
  rcases Relation.ReflTransGen.cases_head hderives with rfl | ⟨v, hstep, hrest⟩
  · obtain ⟨hpath, -⟩ := hcompletes
    cases hpath with
    | cons hlexeme =>
      rw [isLexeme_iff, hg.start] at hlexeme
      cases hlexeme
  · obtain ⟨id, hid, rfl⟩ := hstep.of_singleton
    exact ⟨id, hid, hrest⟩

/-! ### Roots and paths -/

section

variable {run : Run g} {id : RuleId}

/-- A rule has a root over a place exactly if it derives lexemes that cover the input. -/
theorem Coherent.exists_root_iff_completes (hg : g.Coherent) (hlongest : g.longestMatch = false)
    (hrun : run.Before input (input.size + 1)) (hid : g.structural.lhs? id = some g.start)
    (p : Nat) :
    (∃ root ∈ run.roots, root.set = p ∧
        run.chart.item? root = some ⟨id, (g.structural.rhs id).length, 0⟩) ↔
      ∃ as, g.structural.Derives (g.structural.rhs id) as ∧ g.Completes input as p := by
  have hl : g.Fits input (g.lexemeLattice input) := hg.fits_lexemeLattice hlongest
  have hspans := hl.exists_root_iff hg hid p
  rw [hg.spans_iff_exists_path] at hspans
  constructor
  · rintro ⟨root, hmem, rfl, hit⟩
    have hend := ((hl.mem_roots_iff hg hrun).mp hmem).1
    rw [hrun.chart] at hit
    obtain ⟨as, hderives, hchain⟩ := hspans.mp ⟨root.index, hit⟩
    exact ⟨as, hderives, hg.completes_iff.mpr ⟨hchain, hend⟩⟩
  · rintro ⟨as, hderives, hcompletes⟩
    obtain ⟨hchain, hend⟩ := hg.completes_iff.mp hcompletes
    obtain ⟨m, hm⟩ := hspans.mpr ⟨as, hderives, hchain⟩
    have hm : run.chart.item? ⟨p, m⟩ = some ⟨id, (g.structural.rhs id).length, 0⟩ := by
      rw [hrun.chart]
      exact hm
    exact ⟨⟨p, m⟩, (hl.mem_roots_iff hg hrun).mpr ⟨hend, id, hid, hm⟩, rfl, hm⟩

/-- The roots are the complete items of the start symbol where lexemes end that cover the
    input. -/
theorem Coherent.mem_roots_iff_completes (hg : g.Coherent) (hlongest : g.longestMatch = false)
    (hrun : run.Before input (input.size + 1)) {root : ItemRef} :
    root ∈ run.roots ↔ ∃ id, g.structural.lhs? id = some g.start ∧
      run.chart.item? root = some ⟨id, (g.structural.rhs id).length, 0⟩ ∧
      ∃ as, g.structural.Derives [g.start] as ∧ g.Completes input as root.set := by
  have hl : g.Fits input (g.lexemeLattice input) := hg.fits_lexemeLattice hlongest
  constructor
  · intro hmem
    obtain ⟨-, id, hid, hit⟩ := (hl.mem_roots_iff hg hrun).mp hmem
    obtain ⟨as, hderives, hcompletes⟩ :=
      (hg.exists_root_iff_completes hlongest hrun hid root.set).mp ⟨root, hmem, rfl, hit⟩
    exact ⟨id, hid, hit, as, .of_rhs hid hderives, hcompletes⟩
  · rintro ⟨id, hid, hit, as, -, hcompletes⟩
    exact (hl.mem_roots_iff hg hrun).mpr ⟨(hg.completes_iff.mp hcompletes).2, id, hid, hit⟩

/-- There is a root exactly if the start symbol derives lexemes that cover the input. -/
theorem Coherent.exists_mem_roots_iff (hg : g.Coherent) (hlongest : g.longestMatch = false)
    (hrun : run.Before input (input.size + 1)) :
    (∃ root, root ∈ run.roots) ↔
      ∃ as p, g.structural.Derives [g.start] as ∧ g.Completes input as p := by
  constructor
  · rintro ⟨root, hmem⟩
    obtain ⟨-, -, -, as, h⟩ := (hg.mem_roots_iff_completes hlongest hrun).mp hmem
    exact ⟨as, root.set, h⟩
  · rintro ⟨as, p, hderives, hcompletes⟩
    obtain ⟨id, hid, hrule⟩ := hg.exists_rule_of_completes hderives hcompletes
    obtain ⟨root, hmem, -⟩ :=
      (hg.exists_root_iff_completes hlongest hrun hid p).mpr ⟨as, hrule, hcompletes⟩
    exact ⟨root, hmem⟩

end

end Grammar

/-! ### Exactness -/

theorem Recognition.failure?_eq_none_iff {r : Recognition} :
    r.failure? = none ↔ ∃ root, root ∈ r.run.roots := by
  rw [failure?]
  split
  next hempty =>
    rw [List.isEmpty_iff] at hempty
    constructor
    · intro h
      simp only at h
      split at h <;> cases h
    · rintro ⟨root, hroot⟩
      rw [hempty] at hroot
      cases hroot
  next hroots => exact ⟨fun _ => List.exists_mem_of_ne_nil _ (by simpa using hroots), fun _ => rfl⟩

/-- Without longest matching an input is recognized exactly if the start symbol derives
    lexemes that cover it. The complete items that a run ends with are those of the start
    symbol over the places where such lexemes end. -/
theorem recognize_exact {g : Grammar} (hg : g.IsCompiled) (hlongest : g.longestMatch = false)
    (input : String) :
    ∃ r, recognize g none input = .ok r ∧
      (r.failure? = none ↔ ∃ as p, g.structural.Derives [g.start] as ∧
        g.Completes (.ofList input.toList) as p) ∧
      (∀ root, root ∈ r.run.roots ↔ ∃ id, g.structural.lhs? id = some g.start ∧
        r.run.chart.item? root = some ⟨id, (g.structural.rhs id).length, 0⟩ ∧
        ∃ as, g.structural.Derives [g.start] as ∧
          g.Completes (.ofList input.toList) as root.set) ∧
      ∀ id p, g.structural.lhs? id = some g.start →
        ((∃ root ∈ r.run.roots, root.set = p ∧
            r.run.chart.item? root = some ⟨id, (g.structural.rhs id).length, 0⟩) ↔
          ∃ as, g.structural.Derives (g.structural.rhs id) as ∧
            g.Completes (.ofList input.toList) as p) := by
  have hc := hg.coherent
  obtain ⟨r, hr⟩ := exists_recognizeIndexed_none g (.ofList input.toList)
  obtain ⟨run, hto, rfl⟩ := recognizeIndexed_eq_ok_iff.mp hr
  have hrun := Grammar.before_of_runTo hc.lexicon hto
  refine ⟨_, hr, ?_, fun root => hc.mem_roots_iff_completes hlongest hrun,
    fun id p hid => hc.exists_root_iff_completes hlongest hrun hid p⟩
  rw [Recognition.failure?_eq_none_iff]
  exact hc.exists_mem_roots_iff hlongest hrun

/-- Words with blanks between them are covered by lexemes that the start symbol
    derives. -/
theorem recognize_exact_words :
    ∃ g, Definition.words.compile = .ok g ∧ g.longestMatch = false ∧
      ∃ as p, g.structural.Derives [g.start] as ∧
        g.Completes (.ofList " aa a ".toList) as p := by
  have hrun : Definition.words.compile.toOption.any (fun g => !g.longestMatch &&
      (recognize g none " aa a ").toOption.any fun r => r.failure?.isNone) = true := by
    decide +kernel
  obtain ⟨g, hg, htest⟩ := exists_eq_ok_of_any hrun
  simp only [Bool.and_eq_true, Bool.not_eq_true'] at htest
  obtain ⟨hlongest, htest⟩ := htest
  obtain ⟨r, hr, hiff, -⟩ := recognize_exact (Or.inl ⟨_, hg⟩) hlongest " aa a "
  rw [hr] at htest
  exact ⟨g, hg, hlongest, hiff.mp (Option.isNone_iff_eq_none.mp htest)⟩

end Scannerless
