import Mathlib.Data.List.Forall2
import Scannerless.Lexer
import Scannerless.Proofs.Chart.Stages

/-!
# What a lexer matches

A lexer reads characters one by one, so that its places are numbers of characters. The
symbols that it finds are those that derive what was read, and each length is found.

## Main definitions

- `Grammar.Accepts`, `Grammar.Matches` — what a symbol stands for: one character, or a
  text by the lexical rules.
- `Grammar.Lexicon` — what the lexical rules of a grammar are like.
- `Grammar.charLattice` — the characters between the places of a text.
- `Grammar.ReadTo` — the invariant of reading: where it has come to, with the text behind.

## Main statements

- `Grammar.mem_matchesAt_iff` — the matches are the targets that derive a beginning of
  the text that is not empty.
- `Grammar.sorted_matchesAt` — shorter matches come first.
-/

namespace Scannerless

open Text

namespace Chart

variable {t : RuleTable}

theorem foldl_predict_eq (c : Chart t) (k : Nat) (ss : List SymbolId) :
    ss.foldl (fun c s => c.predict k s) c = c.applyAll (ss.flatMap (predictions t k)) := by
  induction ss generalizing c with
  | nil => rfl
  | cons s ss ih => rw [List.foldl_cons, ih, predict_eq, List.flatMap_cons, applyAll_append]

theorem mem_expected_iff (c : Chart t) (k : Nat) (s : SymbolId) :
    s ∈ c.expected k ↔
      t.hasRules s = false ∧ ∃ i it, c.item? ⟨k, i⟩ = some it ∧ t.next? it = some s := by
  rw [mem_expected]
  constructor
  · rintro ⟨⟨it, hmem, hs⟩, hterm⟩
    obtain ⟨i, hi⟩ := (c.mem_items_iff k it).mp hmem
    exact ⟨hterm, i, it, hi, hs⟩
  · rintro ⟨hterm, i, it, hi, hs⟩
    exact ⟨⟨it, (c.mem_items_iff k it).mpr ⟨i, hi⟩, hs⟩, hterm⟩

/-- The symbols completed from the first set on: some rule of theirs is. -/
theorem contains_completedSymbols_iff (c : Chart t) (k : Nat) (s : SymbolId) (origin : Nat) :
    (c.completedSymbols k origin).contains s = true ↔
      ∃ i it, c.item? ⟨k, i⟩ = some it ∧ it.origin = origin ∧ t.next? it = none ∧
        t.lhs? it.rule = some s := by
  simp only [completedSymbols, Std.TreeSet.contains_ofList, List.contains_iff_mem,
    List.mem_filterMap, List.mem_filter, Bool.and_eq_true, beq_iff_eq,
    RuleTable.isComplete_iff, mem_items_iff]
  constructor
  · rintro ⟨it, ⟨⟨i, hi⟩, horigin, hnext⟩, hlhs⟩
    exact ⟨i, it, hi, horigin, hnext, hlhs⟩
  · rintro ⟨i, it, hi, horigin, hnext, hlhs⟩
    exact ⟨it, ⟨⟨i, hi⟩, horigin, hnext⟩, hlhs⟩

end Chart

namespace Grammar

variable {g : Grammar}

/-- A symbol stands for a character of its class. -/
def Accepts (g : Grammar) (s : SymbolId) (c : Char) : Prop :=
  ∃ cls, g.charClass? s = some cls ∧ cls.contains c = true

/-- A symbol derives a text by the lexical rules. -/
def Matches (g : Grammar) (s : SymbolId) (text : List Char) : Prop :=
  ∃ w, g.lexical.Derives [s] w ∧ List.Forall₂ g.Accepts w text

/-- What the lexical rules are like: they are indexed, and a symbol that stands for a
    character has none. -/
structure Lexicon (g : Grammar) : Prop where
  indexed : g.lexical.Indexed
  chars : ∀ s cls, g.charClass? s = some cls → g.lexical.hasRules s = false

/-- The characters between the places of a text. -/
def charLattice (g : Grammar) (cs : List Char) : Lattice :=
  ⟨id, fun k s j => j = k + 1 ∧ ∃ c, cs[k]? = some c ∧ g.Accepts s c⟩

theorem charLattice_forward (cs : List Char) : (g.charLattice cs).Forward := by
  rintro k s j ⟨rfl, -⟩
  exact Nat.lt_succ_self k

/-- The characters on a path are those that stand between its ends. -/
theorem chain_charLattice_iff {cs : List Char} {w : List SymbolId} {i j : Nat}
    (hi : i ≤ cs.length) :
    (g.charLattice cs).Chain w i j ↔
      ∃ text rest, cs.drop i = text ++ rest ∧ j = i + text.length ∧
        List.Forall₂ g.Accepts w text := by
  induction w generalizing i with
  | nil =>
    constructor
    · rintro ⟨⟩
      exact ⟨[], _, rfl, rfl, .nil⟩
    · rintro ⟨text, rest, -, rfl, h⟩
      cases h
      exact .nil i
  | cons s w ih =>
    constructor
    · intro h
      cases h with
      | cons hs hw =>
        obtain ⟨rfl, c, hc, haccepts⟩ := hs
        obtain ⟨hlt, hget⟩ := List.getElem?_eq_some_iff.mp hc
        obtain ⟨text, rest, hdrop, rfl, hall⟩ := (ih hlt).mp hw
        refine ⟨c :: text, rest, ?_, by rw [List.length_cons]; omega, .cons haccepts hall⟩
        rw [List.drop_eq_getElem_cons hlt, hget, hdrop]
        rfl
    · rintro ⟨text, rest, hdrop, rfl, hall⟩
      cases hall with
      | @cons _ c _ text haccepts hall =>
        -- At the end of the text there is no character left to read.
        have hlt : i < cs.length := by
          refine Nat.lt_of_le_of_ne hi fun h => ?_
          rw [h, List.drop_length] at hdrop
          cases hdrop
        rw [List.drop_eq_getElem_cons hlt, List.cons_append, List.cons.injEq] at hdrop
        have hc : cs[i]? = some c := List.getElem?_eq_some_iff.mpr ⟨hlt, hdrop.1⟩
        refine .cons ⟨rfl, c, hc, haccepts⟩ ((ih hlt).mpr ⟨text, rest, hdrop.2, ?_, hall⟩)
        rw [List.length_cons]
        omega

theorem exists_accepts {w : List SymbolId} {text : List Char}
    (h : List.Forall₂ g.Accepts w text) {s : SymbolId} (hs : s ∈ w) : ∃ c, g.Accepts s c := by
  induction h with
  | nil => cases hs
  | cons haccepts _ ih =>
    rcases List.mem_cons.mp hs with rfl | hs
    · exact ⟨_, haccepts⟩
    · exact ih hs

/-- A rule spans the first characters of a text exactly if its symbols derive
    them. -/
theorem spans_charLattice_iff (hg : g.Lexicon) {cs : List Char} {ss : List SymbolId} {j : Nat} :
    g.lexical.Spans (g.charLattice cs) ss 0 j ↔
      ∃ text rest, cs = text ++ rest ∧ j = text.length ∧
        ∃ w, g.lexical.Derives ss w ∧ List.Forall₂ g.Accepts w text := by
  rw [RuleTable.spans_iff_derives hg.indexed]
  constructor
  · rintro ⟨w, hderives, -, hchain⟩
    obtain ⟨text, rest, hdrop, hj, hall⟩ := (chain_charLattice_iff (Nat.zero_le _)).mp hchain
    exact ⟨text, rest, by simpa using hdrop, by simpa using hj, w, hderives, hall⟩
  · rintro ⟨text, rest, hcs, hj, w, hderives, hall⟩
    refine ⟨w, hderives, ?_, (chain_charLattice_iff (Nat.zero_le _)).mpr
      ⟨text, rest, by simpa using hcs, by simpa using hj, hall⟩⟩
    intro s hs
    obtain ⟨c, cls, hcls, -⟩ := exists_accepts hall hs
    exact hg.chars s cls hcls

/-! ### Reading characters -/

theorem readChar_eq (g : Grammar) (k : Nat) (c : Char) (chart : Chart g.lexical) :
    g.readChar k c chart = chart.grow.scanAll k k
      (((chart.expected k).filter fun s => (g.charClass? s).any (·.contains c)).map
        (·, k + 1)) := by
  rw [readChar, Chart.scanAll, List.foldl_map]

/-- A character is a token for all expected symbols that stand for it. -/
theorem tokens_readChar {cs : List Char} {k : Nat} {c : Char} {chart : Chart g.lexical}
    (hsize : chart.sets.size = k + 1) (hc : cs[k]? = some c) :
    chart.grow.Tokens (g.charLattice cs) k
      (((chart.expected k).filter fun s => (g.charClass? s).any (·.contains c)).map
        (·, k + 1)) where
  sound s j hf := by
    obtain ⟨s', hs', hpair⟩ := List.mem_map.mp hf
    obtain ⟨rfl, rfl⟩ := Prod.mk.inj hpair
    obtain ⟨hexpected, hclass⟩ := List.mem_filter.mp hs'
    obtain ⟨hterm, -⟩ := (Chart.mem_expected_iff _ _ _).mp hexpected
    refine ⟨⟨rfl, c, hc, by simpa [Accepts, Option.any_eq_true] using hclass⟩, hterm, ?_⟩
    rw [Chart.grow, Array.size_push]
    omega
  complete i it s j hit hs hterm hj := by
    obtain ⟨rfl, c', hc', cls, hcls, haccepts⟩ := hj
    obtain rfl := Option.some_inj.mp (hc'.symm.trans hc)
    refine List.mem_map.mpr ⟨s, List.mem_filter.mpr ⟨?_, by simp [hcls, haccepts]⟩, rfl⟩
    exact (Chart.mem_expected_iff _ _ _).mpr ⟨hterm, i, it, by simpa using hit, hs⟩

/-- A symbol has a rule that spans the first characters of a text. -/
def Ends (g : Grammar) (cs : List Char) (s : SymbolId) (j : Nat) : Prop :=
  ∃ id ∈ g.lexical.rulesFor s, g.lexical.Spans (g.charLattice cs) (g.lexical.rhs id) 0 j

theorem mem_endingAt_iff (hg : g.Lexicon) {cs : List Char} {targets : List SymbolId} {k : Nat}
    {chart : Chart g.lexical} (hchart : chart.ClosedTo targets (g.charLattice cs) k)
    (s : SymbolId) : s ∈ g.endingAt targets k chart ↔ s ∈ targets ∧ g.Ends cs s k := by
  have hl : (g.charLattice cs).Forward := charLattice_forward cs
  rw [endingAt, List.mem_filter, Chart.contains_completedSymbols_iff]
  refine and_congr_right fun hs => ⟨?_, ?_⟩
  · rintro ⟨i, it, hit, horigin, hnext, hlhs⟩
    refine ⟨it.rule, (hg.indexed _ _).mpr hlhs, ?_⟩
    have hspans := hchart.arises.spans hg.indexed hit
    rwa [RuleTable.take_of_next?_eq_none hnext, horigin] at hspans
  · rintro ⟨id, hid, hspans⟩
    obtain ⟨m, hm⟩ :=
      (hchart.exists_complete_iff hg.indexed hl hs hid (Nat.le_refl k)).mpr hspans
    refine ⟨m, _, hm, rfl, ?_, (hg.indexed s id).mp hid⟩
    exact RuleTable.next?_eq_none_iff.mpr (Nat.le_refl _)

theorem set_lt_of_isEmpty {t : RuleTable} {c : Chart t} {k : Nat} (hsize : c.sets.size = k + 1)
    (hempty : (c.setAt k).isEmpty = true) (ref : ItemRef) (it : Item)
    (hit : c.item? ref = some it) : ref.set < k := by
  have hlt := Chart.set_lt_of_item? hit
  have hne : ref.set ≠ k := by
    rintro rfl
    have hpos := StateSet.item?_lt hit
    rw [StateSet.isEmpty, beq_iff_eq] at hempty
    omega
  omega

theorem mem_map_endingAt_iff (hg : g.Lexicon) {cs : List Char} {targets : List SymbolId}
    {k : Nat} {chart : Chart g.lexical} (hchart : chart.ClosedTo targets (g.charLattice cs) k)
    (length : Nat) (s : SymbolId) (n : Nat) :
    (s, n) ∈ (g.endingAt targets k chart).map (·, length) ↔
      s ∈ targets ∧ n = length ∧ g.Ends cs s k := by
  rw [List.mem_map]
  constructor
  · rintro ⟨s', hs', hpair⟩
    obtain ⟨rfl, rfl⟩ := Prod.mk.inj hpair
    obtain ⟨htarget, hends⟩ := (mem_endingAt_iff hg hchart s').mp hs'
    exact ⟨htarget, rfl, hends⟩
  · rintro ⟨htarget, rfl, hends⟩
    exact ⟨s, (mem_endingAt_iff hg hchart s).mpr ⟨htarget, hends⟩, rfl⟩

/-- Reading has come to place `k` of a text, with `rest` behind it. -/
structure ReadTo (g : Grammar) (targets : List SymbolId) (cs : List Char) (k : Nat)
    (chart : Chart g.lexical) (rest : List Char) : Prop where
  stage : chart.Stage targets (g.charLattice cs) k
  size : chart.sets.size = k + 1
  rest_eq : rest = cs.drop k
  le : k ≤ cs.length

variable {cs rest : List Char} {targets : List SymbolId} {k : Nat} {chart : Chart g.lexical}
  {c : Char}

theorem ReadTo.closed (h : g.ReadTo targets cs k chart rest) (hg : g.Lexicon) :
    (chart.close k).ClosedTo targets (g.charLattice cs) k :=
  h.stage.close hg.indexed (charLattice_forward cs)

theorem ReadTo.size_close (h : g.ReadTo targets cs k chart rest) :
    (chart.close k).sets.size = k + 1 := by
  rw [Chart.close_eq, Chart.size_sets_applyAll, h.size]

theorem ReadTo.drop_eq (h : g.ReadTo targets cs k chart (c :: rest)) :
    k < cs.length ∧ cs[k]? = some c ∧ rest = cs.drop (k + 1) := by
  have hrest := h.rest_eq
  have hlt : k < cs.length := by
    refine Nat.lt_of_le_of_ne h.le fun hk => ?_
    rw [hk, List.drop_length] at hrest
    cases hrest
  rw [List.drop_eq_getElem_cons hlt, List.cons.injEq] at hrest
  exact ⟨hlt, List.getElem?_eq_some_iff.mpr ⟨hlt, hrest.1.symm⟩, hrest.2⟩

/-- Reading a character leads to the next place. -/
theorem ReadTo.next (h : g.ReadTo targets cs k chart (c :: rest)) (hg : g.Lexicon) :
    g.ReadTo targets cs (k + 1) (g.readChar k c (chart.close k)) rest := by
  have hl : (g.charLattice cs).Forward := charLattice_forward cs
  obtain ⟨hlt, hc, hrest⟩ := h.drop_eq
  have htokens := tokens_readChar h.size_close hc
  refine ⟨?_, ?_, hrest, hlt⟩
  · rw [readChar_eq]
    exact (h.closed hg).grow.next hl htokens
  · rw [readChar_eq, Chart.scanAll_eq (htokens.ne hl), Chart.size_sets_applyAll, Chart.grow,
      Array.size_push, h.size_close]

theorem ReadTo.byteLength_add (h : g.ReadTo targets cs k chart (c :: rest)) :
    byteLength (cs.take k) + c.utf8Size = byteLength (cs.take (k + 1)) := by
  obtain ⟨-, hc, -⟩ := h.drop_eq
  rw [List.take_add_one, hc, byteLength_append]
  rfl

theorem readTo_zero (targets : List SymbolId) (cs : List Char) :
    g.ReadTo targets cs 0 (targets.foldl (fun c s => c.predict 0 s) (.ofSize 1)) cs := by
  rw [Chart.foldl_predict_eq]
  refine ⟨Chart.stage_zero Nat.one_pos, ?_, List.drop_zero.symm, Nat.zero_le _⟩
  rw [Chart.size_sets_applyAll, Chart.ofSize, Chart.ofSets, Array.size_replicate]

/-- If nothing reaches the next place nothing ends there or later. -/
theorem ReadTo.not_ends (h : g.ReadTo targets cs k chart rest) (hg : g.Lexicon)
    (hempty : (chart.setAt k).isEmpty = true) (hs : s ∈ targets) {j : Nat} (hj : k ≤ j) :
    ¬g.Ends cs s j := by
  rintro ⟨id, hid, hspans⟩
  exact h.stage.not_spans hg.indexed (charLattice_forward cs)
    (set_lt_of_isEmpty h.size hempty) hs hid hj hspans

/-- Reading on from a place finds the targets that end there or later. -/
theorem ReadTo.mem_matchesFrom_iff (h : g.ReadTo targets cs k chart rest) (hg : g.Lexicon)
    (s : SymbolId) (n : Nat) :
    (s, n) ∈ g.matchesFrom targets k (byteLength (cs.take k)) chart rest ↔
      s ∈ targets ∧
        ∃ j, k ≤ j ∧ j ≤ cs.length ∧ n = byteLength (cs.take j) ∧ g.Ends cs s j := by
  induction rest generalizing k chart with
  | nil =>
    have hlast : k = cs.length := Nat.le_antisymm h.le (List.drop_eq_nil_iff.mp h.rest_eq.symm)
    rw [matchesFrom, mem_map_endingAt_iff hg (h.closed hg)]
    refine and_congr_right fun _ => ⟨?_, ?_⟩
    · rintro ⟨hn, hends⟩
      exact ⟨k, Nat.le_refl k, h.le, hn, hends⟩
    · rintro ⟨j, hkj, hj, hn, hends⟩
      obtain rfl : j = k := by omega
      exact ⟨hn, hends⟩
  | cons c rest ih =>
    have hnext := h.next hg
    simp only [matchesFrom]
    split
    next hempty =>
      rw [mem_map_endingAt_iff hg (h.closed hg)]
      refine and_congr_right fun htarget => ⟨?_, ?_⟩
      · rintro ⟨hn, hends⟩
        exact ⟨k, Nat.le_refl k, h.le, hn, hends⟩
      · rintro ⟨j, hkj, -, hn, hends⟩
        -- Nothing was read into the next place, so that no later place has a match.
        rcases Nat.eq_or_lt_of_le hkj with rfl | hlater
        · exact ⟨hn, hends⟩
        · exact absurd hends (hnext.not_ends hg hempty htarget hlater)
    next =>
      rw [List.mem_append, mem_map_endingAt_iff hg (h.closed hg), h.byteLength_add, ih hnext]
      constructor
      · rintro (⟨htarget, hn, hends⟩ | ⟨htarget, j, hkj, hj⟩)
        · exact ⟨htarget, k, Nat.le_refl k, h.le, hn, hends⟩
        · exact ⟨htarget, j, Nat.le_of_succ_le hkj, hj⟩
      · rintro ⟨htarget, j, hkj, hj, hn, hends⟩
        rcases Nat.eq_or_lt_of_le hkj with rfl | hlater
        · exact Or.inl ⟨htarget, hn, hends⟩
        · exact Or.inr ⟨htarget, j, hlater, hj, hn, hends⟩

/-! ### Matches -/

theorem byteLength_eq_zero_iff {cs : List Char} : byteLength cs = 0 ↔ cs = [] := by
  cases cs with
  | nil => simp [byteLength]
  | cons c cs =>
    have hpos := c.utf8Size_pos
    simp only [byteLength, reduceCtorEq, iff_false]
    omega

/-- A symbol that stands for no character ends where a text ends that it derives. -/
theorem ends_iff (hg : g.Lexicon) {cs : List Char} {s : SymbolId} (hs : g.charClass? s = none)
    {j : Nat} :
    g.Ends cs s j ↔ ∃ text rest, cs = text ++ rest ∧ j = text.length ∧ g.Matches s text := by
  have hsingle : g.Ends cs s j ↔ g.lexical.Spans (g.charLattice cs) [s] 0 j := by
    rw [RuleTable.spans_singleton_iff, Ends]
    refine ⟨Or.inr, ?_⟩
    rintro (⟨-, -, c, -, cls, hcls, -⟩ | h)
    · rw [hs] at hcls
      cases hcls
    · exact h
  rw [hsingle, spans_charLattice_iff hg]
  rfl

/-- The matches are the targets that derive a beginning of the text that is not
    empty, each with the length of the beginning. -/
theorem mem_matchesAt_iff (hg : g.Lexicon) {targets : List SymbolId}
    (ht : ∀ s ∈ targets, g.charClass? s = none) (cs : List Char) (s : SymbolId) (n : Nat) :
    (s, n) ∈ g.matchesAt targets cs ↔
      s ∈ targets ∧
        ∃ text rest, cs = text ++ rest ∧ n = byteLength text ∧ text ≠ [] ∧ g.Matches s text := by
  have hfrom := (readTo_zero (g := g) targets cs).mem_matchesFrom_iff hg s n
  rw [List.take_zero] at hfrom
  rw [matchesAt, List.mem_filter, decide_eq_true_iff]
  constructor
  · rintro ⟨hmem, hpos⟩
    obtain ⟨htarget, j, -, -, rfl, hends⟩ := hfrom.mp hmem
    obtain ⟨text, rest, rfl, rfl, hmatches⟩ := (ends_iff hg (ht s htarget)).mp hends
    refine ⟨htarget, text, rest, rfl, by rw [List.take_left], ?_, hmatches⟩
    rintro rfl
    exact absurd hpos (by simp [byteLength])
  · rintro ⟨htarget, text, rest, rfl, rfl, htext, hmatches⟩
    refine ⟨hfrom.mpr ⟨htarget, text.length, Nat.zero_le _, by simp, by rw [List.take_left],
      (ends_iff hg (ht s htarget)).mpr ⟨text, rest, rfl, rfl, hmatches⟩⟩, ?_⟩
    exact Nat.pos_of_ne_zero fun h => htext (byteLength_eq_zero_iff.mp h)

theorem le_of_mem_matchesFrom {targets : List SymbolId} {k length : Nat}
    {chart : Chart g.lexical} {cs : List Char} {f : SymbolId × Nat}
    (h : f ∈ g.matchesFrom targets k length chart cs) : length ≤ f.2 := by
  induction cs generalizing k length chart with
  | nil =>
    obtain ⟨s, -, rfl⟩ := List.mem_map.mp h
    exact Nat.le_refl _
  | cons c cs ih =>
    have hhere {f : SymbolId × Nat}
        (h : f ∈ (g.endingAt targets k (chart.close k)).map (·, length)) : length ≤ f.2 := by
      obtain ⟨s, -, rfl⟩ := List.mem_map.mp h
      exact Nat.le_refl _
    simp only [matchesFrom] at h
    split at h
    · exact hhere h
    · rcases List.mem_append.mp h with h | h
      · exact hhere h
      · exact (Nat.le_add_right _ _).trans (ih h)

theorem sorted_matchesFrom {targets : List SymbolId} {k length : Nat}
    {chart : Chart g.lexical} (cs : List Char) :
    (g.matchesFrom targets k length chart cs).Pairwise (·.2 ≤ ·.2) := by
  have hhere (k length : Nat) (chart : Chart g.lexical) :
      ((g.endingAt targets k chart).map (·, length)).Pairwise (·.2 ≤ ·.2) :=
    List.pairwise_map.mpr (List.pairwise_of_forall fun _ _ => Nat.le_refl length)
  induction cs generalizing k length chart with
  | nil => exact hhere _ _ _
  | cons c cs ih =>
    simp only [matchesFrom]
    split
    · exact hhere _ _ _
    · refine List.pairwise_append.mpr ⟨hhere _ _ _, ih, fun f hf f' hf' => ?_⟩
      obtain ⟨s, -, rfl⟩ := List.mem_map.mp hf
      exact (Nat.le_add_right _ _).trans (le_of_mem_matchesFrom hf')

/-- Shorter matches come first. -/
theorem sorted_matchesAt (g : Grammar) (targets : List SymbolId) (cs : List Char) :
    (g.matchesAt targets cs).Pairwise (·.2 ≤ ·.2) :=
  (sorted_matchesFrom cs).filter _

end Grammar

end Scannerless
