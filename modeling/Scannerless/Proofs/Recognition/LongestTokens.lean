import Scannerless.Proofs.Recognition.Choice

/-!
# Longest tokens

With longest matching a lexer is asked for the tokens that are expected at a place, and takes
the longest ones of these. If the start symbol derives lexemes that cover an input, each being
as long as any lexeme is at its place, then what is expected does not matter: the input is
recognized, and all of its readings have the longest lexemes for tokens.

## Main definitions

- `Grammar.longestLattice` — the longest lexemes between the places of an input.
- `Recognition.lenient` — the tokens that were read, and any token that was not expected.

## Main statements

- `RuleTable.Reads.along` — readings of one lattice are those of another one that has its
  tokens from the places that are come by.
- `Recognition.Ended.reads_longest` — inputs that are covered by longest lexemes.
-/

namespace Scannerless

open Text

/-! ### Readings over two lattices -/

/-- The tokens that two lattices have in common. -/
def Lattice.meet (l m : Lattice) : Lattice :=
  ⟨l.start, fun k s j => l.token k s j ∧ m.token k s j⟩

namespace RuleTable

variable {t : RuleTable} {l m : Lattice} {ss : List SymbolId} {i j : Nat} {ts : List Tree}

/-- A reading comes by places with a property if tokens keep it. It is a reading over every
    lattice that has the tokens from such places. -/
theorem Reads.along {P : Nat → Prop}
    (htoken : ∀ k s j, P k → l.token k s j → m.token k s j ∧ m.start k = l.start k ∧ P j)
    (h : t.Reads l ss i j ts) (hi : P i) : t.Reads m ss i j ts ∧ P j := by
  induction h with
  | nil => exact ⟨.nil _, hi⟩
  | @token _ _ k j _ s _ hs hj ih =>
    obtain ⟨hss, hk⟩ := ih hi
    obtain ⟨hm, hstart, hP⟩ := htoken k s j hk hj
    refine ⟨?_, hP⟩
    rw [← hstart]
    exact .token hss hs hm
  | node _ hid _ ih ihus =>
    obtain ⟨hss, hk⟩ := ih hi
    obtain ⟨hus, hj⟩ := ihus hk
    exact ⟨.node hss hid hus, hj⟩

/-- Trees that are read over two lattices are read over the tokens that they share. -/
theorem Reads.meet (h : t.Reads l ss i j ts) (h' : t.Reads m ss i j ts) :
    t.Reads (l.meet m) ss i j ts := by
  induction h with
  | nil => exact .nil _
  | token _ hs hj ih =>
    obtain ⟨k, ts, hss, ⟨-, hj', heq⟩ | ⟨id, us, -, -, heq⟩⟩ := h'.concat_cases
    · obtain ⟨rfl, hlast⟩ := List.append_inj' heq rfl
      obtain ⟨rfl, -⟩ : _ = k ∧ _ := by simpa using hlast
      exact .token (ih hss) hs ⟨hj, hj'⟩
    · simp at heq
  | node _ hid _ ih ihus =>
    obtain ⟨k, ts, hss, ⟨-, -, heq⟩ | ⟨id, us, -, hus, heq⟩⟩ := h'.concat_cases
    · simp at heq
    · obtain ⟨rfl, hlast⟩ := List.append_inj' heq rfl
      obtain ⟨rfl, rfl, rfl⟩ : _ = id ∧ _ = k ∧ _ = us := by simpa using hlast
      exact .node (ih hss) hid (ihus hus)

end RuleTable

/-! ### The longest lexemes -/

/-- The longest lexemes between the places of an input. -/
def Grammar.longestLattice (g : Grammar) (input : Indexed) : Lattice :=
  ⟨g.skipEnd input, fun k s j => (g.lexemeLattice input).token k s j ∧
    ∀ s' j', (g.lexemeLattice input).token k s' j' → j' ≤ j⟩

namespace Recognition

variable {r : Recognition} {k j p : Nat} {s : SymbolId} {as : List SymbolId}

theorem Ended.skip_eq_of_mem_expected (hr : r.Ended) (hs : s ∈ r.run.chart.expected k) :
    r.skip k = r.grammar.skipEnd r.input k := by
  refine hr.skip_eq (Bool.eq_false_iff.mpr fun hempty => ?_)
  rw [Chart.expected_of_isEmpty hempty] at hs
  cases hs

/-- With longest matching the tokens that were read are the longest lexemes that were
    expected. -/
theorem Ended.token_iff (hr : r.Ended) (hlongest : r.grammar.longestMatch = true) :
    r.lattice.token k s j ↔ s ∈ r.run.chart.expected k ∧
      (r.grammar.lexemeLattice r.input).token k s j ∧ ∀ s' ∈ r.run.chart.expected k, ∀ j',
        (r.grammar.lexemeLattice r.input).token k s' j' → j' ≤ j := by
  have hfits := hr.fits_lattice
  -- What is expected is in a right side, so that what it matches is a lexeme and not empty.
  have hcovers {s : SymbolId} {j : Nat} (hs : s ∈ r.run.chart.expected k) :
      (r.grammar.lexemeLattice r.input).token k s j ↔
        r.skip k < j ∧ r.grammar.Covers r.input s (r.skip k) j := by
    obtain ⟨id, hid⟩ := Grammar.exists_mem_rhs_of_mem_expected hs
    rw [hr.skip_eq_of_mem_expected hs]
    constructor
    · rintro ⟨-, -, text, hslice, hmatches⟩
      refine ⟨?_, text, hslice, hmatches⟩
      obtain ⟨before, rest, -, -, hj⟩ := slice?_eq_some_iff.mp hslice
      have hne : byteLength text ≠ 0 := fun h =>
        hr.coherent.ne_nil_of_matches hid hmatches (Grammar.byteLength_eq_zero_iff.mp h)
      omega
    · rintro ⟨hlt, text, hslice, hmatches⟩
      exact ⟨Nat.lt_of_le_of_lt (Grammar.le_skipEnd k) hlt,
        Grammar.isLexeme_iff.mpr (hr.coherent.kind?_of_matches hid hmatches).1, text, hslice,
        hmatches⟩
  rw [lattice_token_iff, Grammar.mem_tokensAt_iff_longest hr.coherent.lexicon hlongest
    hr.coherent.expected_ne_char]
  simp only [mem_ascending]
  refine and_congr_right fun hs => ?_
  rw [hcovers hs]
  refine and_congr_right fun _ => forall₂_congr fun s' hs' => ?_
  exact forall_congr' fun j' => by rw [hcovers hs', and_imp]

/-- With longest matching a token that was read is a lexeme that begins where skipping ends. -/
theorem Ended.lexeme_of_token (hr : r.Ended) (hlongest : r.grammar.longestMatch = true)
    (h : r.lattice.token k s j) :
    r.lattice.start k = r.grammar.skipEnd r.input k ∧
      (r.grammar.lexemeLattice r.input).token k s j := by
  obtain ⟨hs, hlexeme, -⟩ := (hr.token_iff hlongest).mp h
  exact ⟨hr.skip_eq_of_mem_expected hs, hlexeme⟩

/-- The tokens that were read, and any token that was not expected. -/
def lenient (r : Recognition) : Lattice :=
  ⟨r.grammar.skipEnd r.input, fun k s j =>
    k < j ∧ (s ∈ r.run.chart.expected k → r.lattice.token k s j)⟩

/-- What was not expected was not looked for, so that it may be anything. -/
theorem Ended.fits_lenient (hr : r.Ended) : r.grammar.Fits r.input r.lenient where
  start _ _ := rfl
  forward h := h.1
  token k s hs j := by
    rw [← hr.fits_lattice.token k s hs j]
    rw [← hr.chart_eq] at hs
    exact ⟨fun h => h.2 hs, fun h => ⟨hr.forward h, fun _ => h⟩⟩

theorem Ended.token_longest (hr : r.Ended) (hlongest : r.grammar.longestMatch = true)
    (h : (r.grammar.longestLattice r.input).token k s j) (hs : s ∈ r.run.chart.expected k) :
    r.lattice.token k s j :=
  (hr.token_iff hlongest).mpr ⟨hs, h.1, fun s' _ j' h' => h.2 s' j' h'⟩

/-- Where a longest lexeme was read all tokens are longest lexemes. -/
theorem Ended.longest_of_token (hr : r.Ended) (hlongest : r.grammar.longestMatch = true)
    {s' : SymbolId} {j' : Nat} (h : (r.grammar.longestLattice r.input).token k s j)
    (hread : r.lattice.token k s j) (hother : r.lattice.token k s' j') :
    j' = j ∧ (r.grammar.longestLattice r.input).token k s' j' := by
  obtain ⟨hs, -, -⟩ := (hr.token_iff hlongest).mp hread
  obtain ⟨-, htoken, hmax⟩ := (hr.token_iff hlongest).mp hother
  obtain rfl : j' = j := Nat.le_antisymm (h.2 s' j' htoken) (hmax s hs j h.1)
  exact ⟨rfl, htoken, h.2⟩

/-- Behind the last token everything is skipped, so that none begins there. -/
theorem Ended.not_token_of_size_le (hr : r.Ended) (hend : r.input.size ≤ r.skip p) :
    ¬r.lattice.token p s j := by
  intro h
  obtain ⟨-, hlt, hcovers⟩ := Grammar.covers_of_mem_tokensAt hr.coherent.lexicon
    hr.coherent.expected_ne_char (lattice_token_iff.mp h)
  have hle := hcovers.le_size
  omega

theorem isLexeme_of_chain {g : Grammar} {input : Indexed} {i j : Nat}
    (h : (g.longestLattice input).Chain as i j) : ∀ a ∈ as, g.isLexeme a = true := by
  induction h with
  | nil => simp
  | cons htoken _ ih => exact List.forall_mem_cons.mpr ⟨htoken.1.2.1, ih⟩

/-- If the start symbol derives longest lexemes that cover an input, it has a reading of
    tokens that were read and that are longest lexemes. -/
theorem Ended.exists_reading_longest (hr : r.Ended) (hlongest : r.grammar.longestMatch = true)
    (hderives : r.grammar.structural.Derives [r.grammar.start] as)
    (hchain : (r.grammar.longestLattice r.input).Chain as 0 p)
    (hend : r.input.size ≤ r.grammar.skipEnd r.input p) :
    r.failure? = none ∧ r.input.size ≤ r.skip p ∧
      ∃ bs, ((r.grammar.longestLattice r.input).meet r.lattice).Chain bs 0 p := by
  have hi := hr.coherent.structural
  have hterminal : ∀ a ∈ as, r.grammar.structural.hasRules a = false := fun a ha =>
    hr.coherent.hasRules_eq_false (Grammar.isLexeme_iff.mp (isLexeme_of_chain hchain a ha))
  obtain ⟨ts, hts⟩ := (RuleTable.spans_iff_derives hi).mpr ⟨as, hderives, hterminal, hchain⟩
  obtain ⟨-, htoken, -⟩ | ⟨id, us, hid, hus, rfl⟩ := hts.singleton_cases
  · -- The start symbol is no lexeme.
    have hkind := Grammar.isLexeme_iff.mp htoken.1.2.1
    rw [hr.coherent.start] at hkind
    cases hkind
  have hlhs := (hi _ id).mp hid
  have hlenient : r.grammar.structural.Reads r.lenient (r.grammar.structural.rhs id) 0 p us ∧
      True := by
    refine hus.along (P := fun _ => True) (fun k s j _ h => ?_) trivial
    exact ⟨⟨h.1.1, hr.token_longest hlongest h⟩, rfl, trivial⟩
  obtain ⟨n, hn⟩ := (hr.exists_complete_iff hr.fits_lenient hlhs p).mpr ⟨us, hlenient.1⟩
  have hskip : r.input.size ≤ r.skip p := by
    rwa [hr.skip_eq (isEmpty_of_item? hn)]
  have hread := (hr.reading_root_iff hr.fits_lenient hn us).mpr hlenient.1
  have hlattice := (hr.reading_root_iff hr.fits_lattice hn us).mp hread
  refine ⟨failure?_eq_none_iff.mpr ⟨_, hr.mem_roots_iff.mpr ⟨hskip, id, hlhs, hn⟩⟩, hskip, ?_⟩
  obtain ⟨bs, -, -, hbs⟩ := RuleTable.Spans.exists_chain hi ⟨us, hus.meet hlattice⟩
  exact ⟨bs, hbs⟩

/-- On a path of longest lexemes that were read nothing else was read. -/
theorem Ended.token_on_path (hr : r.Ended) (hlongest : r.grammar.longestMatch = true)
    (hskip : r.input.size ≤ r.skip p)
    (hchain : ((r.grammar.longestLattice r.input).meet r.lattice).Chain as k p)
    (hj : r.lattice.token k s j) :
    (r.grammar.longestLattice r.input).token k s j ∧
      r.grammar.skipEnd r.input k = r.skip k ∧
      ∃ bs, ((r.grammar.longestLattice r.input).meet r.lattice).Chain bs j p := by
  cases hchain with
  | nil => exact absurd hj (hr.not_token_of_size_le hskip)
  | cons htoken hrest =>
    obtain ⟨rfl, hlong⟩ := hr.longest_of_token hlongest htoken.1 htoken.2 hj
    exact ⟨hlong, (hr.skip_eq_of_mem_expected (hr.expected_of_token hj).1).symm, _, hrest⟩

/-- If the start symbol derives longest lexemes that cover an input, the input is recognized,
    and the tokens of the chosen tree are longest lexemes that cover the input. -/
theorem Ended.reads_longest (hr : r.Ended) (hlongest : r.grammar.longestMatch = true)
    (hderives : r.grammar.structural.Derives [r.grammar.start] as)
    (hchain : (r.grammar.longestLattice r.input).Chain as 0 p)
    (hend : r.input.size ≤ r.grammar.skipEnd r.input p) :
    r.failure? = none ∧ ∀ tree, r.Chosen tree →
      r.grammar.structural.Reads (r.grammar.longestLattice r.input) [r.grammar.start] 0 p
        [tree] := by
  obtain ⟨hok, hskip, bs, hbs⟩ := hr.exists_reading_longest hlongest hderives hchain hend
  refine ⟨hok, ?_⟩
  rintro _ ⟨root, it, us, hroot, hit, hus, rfl⟩
  obtain ⟨hend', id, hid, hit'⟩ := hr.mem_roots_iff.mp (mem_of_mostPreferred hroot)
  obtain rfl := Option.some_inj.mp (hit.symm.trans hit')
  have hreads := (hr.reading_root_iff hr.fits_lattice hit us).mp hus.reading
  -- All readings stay on the path of the longest lexemes, which ends where no token begins.
  have hsame : r.grammar.structural.Reads (r.grammar.longestLattice r.input)
      (r.grammar.structural.rhs id) 0 root.set us ∧
        ∃ bs, ((r.grammar.longestLattice r.input).meet r.lattice).Chain bs root.set p := by
    refine hreads.along (P := fun k =>
      ∃ bs, ((r.grammar.longestLattice r.input).meet r.lattice).Chain bs k p) ?_ ⟨bs, hbs⟩
    rintro k s j ⟨cs, hcs⟩ hj
    exact hr.token_on_path hlongest hskip hcs hj
  obtain ⟨hwhole, cs, hcs⟩ := hsame
  generalize root.set = q at hcs hwhole hend'
  cases hcs with
  | nil => exact .of_rule ((hr.coherent.structural _ id).mpr hid) hwhole
  | cons htoken _ => exact absurd htoken.2 (hr.not_token_of_size_le hend')

end Recognition

end Scannerless
