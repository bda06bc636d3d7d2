import Scannerless.Proofs.Lexer.Matching

/-!
# What a lexer answers

From a place of an input the longest discarded text is skipped, again and again. Tokens
begin where that ends. A lexer that remembers its answers answers as one that was never
asked before.

## Main definitions

- `Grammar.Covers` — a symbol derives the text between two offsets of an input.
- `SkipsTo` — where repeated skipping of the longest discarded text ends.
- `Grammar.Discards` — the texts that a grammar discards.
- `Grammar.Tiles` — the discarded matches that follow one another until skipping ends.
- `Grammar.skipEnd`, `Grammar.tokensAt` — the answers of a lexer that was never asked.
- `Lexer.Faithful` — what a lexer remembers is right.

## Main statements

- `Grammar.skipsTo_iff` — skipping ends where it should, and nowhere else.
- `Grammar.mem_tokensAt_iff`, `Grammar.mem_tokensAt_iff_longest` — the tokens without longest
  matching, and with it.
- `Lexer.Faithful.skip_eq`, `Lexer.Faithful.lexemes_eq` — answers do not depend on what
  was asked before.
-/

namespace Scannerless

open Text

/-- Skipping ends at an offset from which on nothing is discarded. Before that the
    longest discarded text is skipped. -/
inductive SkipsTo (discarded : Nat → Nat → Prop) : Nat → Nat → Prop where
  | stop {i : Nat} (hstop : ∀ k, ¬discarded i k) : SkipsTo discarded i i
  | go {i k j : Nat} (hk : discarded i k) (hlongest : ∀ m, discarded i m → m ≤ k)
      (hj : SkipsTo discarded k j) : SkipsTo discarded i j

theorem SkipsTo.unique {discarded : Nat → Nat → Prop} {i j j' : Nat}
    (h : SkipsTo discarded i j) (h' : SkipsTo discarded i j') : j = j' := by
  induction h with
  | stop hstop =>
    cases h' with
    | stop => rfl
    | go hk => exact absurd hk (hstop _)
  | go hk hlongest _ ih =>
    cases h' with
    | stop hstop => exact absurd hk (hstop _)
    | go hk' hlongest' hj' =>
      -- Both skipped the longest text, so they are at the same place again.
      obtain rfl := Nat.le_antisymm (hlongest' _ hk) (hlongest _ hk')
      exact ih hj'

namespace Grammar

variable {g : Grammar} {input : Indexed} {before after : List Char} {j : Nat}

/-- A symbol derives the text between two offsets of an input. -/
def Covers (g : Grammar) (input : Indexed) (s : SymbolId) (i j : Nat) : Prop :=
  ∃ text, slice? i j input.chars = some text ∧ g.Matches s text

/-- A discarded symbol derives the text between two offsets, which is not empty. -/
def Discarded (g : Grammar) (input : Indexed) (i j : Nat) : Prop :=
  i < j ∧ ∃ s ∈ g.discards, g.Covers input s i j

theorem Covers.le_size {s : SymbolId} {i j : Nat} (h : g.Covers input s i j) :
    i ≤ j ∧ j ≤ input.size := by
  obtain ⟨text, hslice, -⟩ := h
  obtain ⟨before, rest, hchars, rfl, rfl⟩ := slice?_eq_some_iff.mp hslice
  rw [input.size_eq, hchars, byteLength_append, byteLength_append]
  omega

/-- What stands between the two offsets is derived. -/
theorem Covers.matches_between {s : SymbolId} {i j : Nat} (h : g.Covers input s i j) :
    g.Matches s (input.between i j).toList := by
  obtain ⟨text, hslice, hmatches⟩ := h
  rwa [Indexed.between_eq, Text.between, hslice, Option.getD_some, String.toList_ofList]

theorem Covers.eq_add {s : SymbolId} {i j : Nat} (h : g.Covers input s i j) :
    j = i + byteLength (input.between i j).toList := by
  obtain ⟨text, hslice, -⟩ := h
  obtain ⟨before, rest, -, -, hj⟩ := slice?_eq_some_iff.mp hslice
  rw [Indexed.between_eq, Text.between, hslice, Option.getD_some, String.toList_ofList]
  exact hj

/-- A symbol covers what it derives behind a place. -/
theorem covers_iff {s : SymbolId} (hchars : input.chars = before ++ after) :
    g.Covers input s (byteLength before) j ↔
      ∃ text rest, after = text ++ rest ∧ j = byteLength (before ++ text) ∧ g.Matches s text := by
  constructor
  · rintro ⟨text, hslice, hmatches⟩
    obtain ⟨before', rest, hsplit, hlength, rfl⟩ := slice?_eq_some_iff.mp hslice
    have hdrop := dropBytes?_byteLength_append before after
    rw [← hchars, hsplit, ← hlength, dropBytes?_byteLength_append, Option.some_inj] at hdrop
    exact ⟨text, rest, hdrop.symm, by rw [byteLength_append], hmatches⟩
  · rintro ⟨text, rest, rfl, rfl, hmatches⟩
    exact ⟨text, slice?_eq_some_iff.mpr ⟨before, rest, hchars, rfl, byteLength_append before text⟩,
      hmatches⟩

/-- The matches at an offset of an input are the targets that derive a text there. -/
theorem mem_matchesAt_suffixAt_iff (hg : g.Lexicon) {targets : List SymbolId}
    (ht : ∀ s ∈ targets, g.charClass? s = none) (i : Nat) (s : SymbolId) (n : Nat) :
    (s, n) ∈ g.matchesAt targets (input.suffixAt i) ↔
      s ∈ targets ∧ 0 < n ∧ g.Covers input s i (i + n) := by
  rw [mem_matchesAt_iff hg ht, Indexed.suffixAt_eq, Text.suffixAt]
  refine and_congr_right fun _ => ⟨?_, ?_⟩
  · rintro ⟨text, rest, hcut, rfl, htext, hmatches⟩
    have hpos : 0 < byteLength text :=
      Nat.pos_of_ne_zero fun h => htext (byteLength_eq_zero_iff.mp h)
    refine ⟨hpos, text, ?_, hmatches⟩
    cases hdrop : dropBytes? i input.chars with
    | none =>
      -- There is no text behind an offset within a character, and a match takes some.
      rw [hdrop, Option.getD_none] at hcut
      exact absurd (List.append_eq_nil_iff.mp hcut.symm).1 htext
    | some after =>
      rw [hdrop, Option.getD_some] at hcut
      obtain ⟨before, hchars, hlength⟩ := dropBytes?_eq_some_iff.mp hdrop
      exact slice?_eq_some_iff.mpr ⟨before, rest, by rw [hchars, hcut], hlength, rfl⟩
  · rintro ⟨hpos, text, hslice, hmatches⟩
    obtain ⟨before, rest, hchars, rfl, hlength⟩ := slice?_eq_some_iff.mp hslice
    obtain rfl : n = byteLength text := by omega
    refine ⟨text, rest, ?_, rfl, ?_, hmatches⟩
    · rw [hchars, dropBytes?_byteLength_append, Option.getD_some]
    · rintro rfl
      exact absurd hpos (by simp [byteLength])

/-! ### Skipping -/

/-- Where skipping from an offset ends. -/
def skipEnd (g : Grammar) (input : Indexed) (i : Nat) : Nat :=
  (g.skipFrom input (input.size - i) i).1

def PlainDiscards (g : Grammar) : Prop :=
  ∀ s ∈ g.discards, g.charClass? s = none

theorem le_of_getLast? {fs : List (SymbolId × Nat)} (h : fs.Pairwise (·.2 ≤ ·.2))
    {last f : SymbolId × Nat} (hlast : fs.getLast? = some last) (hf : f ∈ fs) : f.2 ≤ last.2 := by
  obtain ⟨front, rfl⟩ := List.getLast?_eq_some_iff.mp hlast
  rcases List.mem_append.mp hf with hf | hf
  · exact (List.pairwise_append.mp h).2.2 f hf last List.mem_cons_self
  · rw [List.mem_singleton.mp hf]

/-- Matches of discarded symbols that follow one another from an offset to where skipping ends.
    Each of them is the longest at its offset. -/
inductive Tiles (g : Grammar) (input : Indexed) : Nat → List LexemeEvent → Nat → Prop where
  | stop {i : Nat} (hstop : ∀ k, ¬g.Discarded input i k) : Tiles g input i [] i
  | go {i k j : Nat} {s : SymbolId} {events : List LexemeEvent} (hs : s ∈ g.discards)
      (hik : i < k) (hcovers : g.Covers input s i k) (hlongest : ∀ m, g.Discarded input i m → m ≤ k)
      (hrest : Tiles g input k events j) : Tiles g input i (⟨.discarded, s, i, k⟩ :: events) j

theorem Tiles.skipsTo {i j : Nat} {events : List LexemeEvent} (h : g.Tiles input i events j) :
    SkipsTo (g.Discarded input) i j := by
  induction h with
  | stop hstop => exact .stop hstop
  | go hs hik hcovers hlongest _ ih => exact .go ⟨hik, _, hs, hcovers⟩ hlongest ih

/-- The last match is the longest, and every one takes some of what is left. -/
theorem tiles_skipFrom (hg : g.Lexicon) (hd : g.PlainDiscards) {steps i : Nat}
    (hsteps : input.size ≤ steps + i) :
    g.Tiles input i (g.skipFrom input steps i).2 (g.skipFrom input steps i).1 := by
  induction steps generalizing i with
  | zero =>
    -- No text is left that could be skipped.
    refine .stop fun k hk => ?_
    obtain ⟨hik, s, -, hcovers⟩ := hk
    have hle := hcovers.le_size
    omega
  | succ steps ih =>
    rw [skipFrom]
    have hmem (s : SymbolId) (n : Nat) : (s, n) ∈ g.matchesAt g.discards (input.suffixAt i) ↔
        s ∈ g.discards ∧ 0 < n ∧ g.Covers input s i (i + n) :=
      mem_matchesAt_suffixAt_iff hg hd i s n
    split
    next hnone =>
      refine .stop fun k hk => ?_
      obtain ⟨hik, s, hs, hcovers⟩ := hk
      obtain ⟨n, rfl⟩ := Nat.exists_eq_add_of_le hik.le
      have hfound := (hmem s n).mpr ⟨hs, by omega, hcovers⟩
      rw [List.getLast?_eq_none_iff.mp hnone] at hfound
      cases hfound
    next s n hlast =>
      obtain ⟨hs, hpos, hcovers⟩ := (hmem s n).mp (List.mem_of_getLast? hlast)
      refine .go hs (by omega) hcovers (fun m hm => ?_) (ih (by omega))
      obtain ⟨him, s', hs', hcovers'⟩ := hm
      obtain ⟨n', rfl⟩ := Nat.exists_eq_add_of_le him.le
      have hfound := (hmem s' n').mpr ⟨hs', by omega, hcovers'⟩
      have hle := le_of_getLast? (sorted_matchesAt g _ _) hlast hfound
      omega

/-- Skipping ends where it should, and nowhere else. -/
theorem skipsTo_iff (hg : g.Lexicon) (hd : g.PlainDiscards) (i j : Nat) :
    SkipsTo (g.Discarded input) i j ↔ j = g.skipEnd input i := by
  have hskips : SkipsTo (g.Discarded input) i (g.skipEnd input i) :=
    (tiles_skipFrom hg hd (by omega)).skipsTo
  constructor
  · intro h
    exact h.unique hskips
  · rintro rfl
    exact hskips

/-- The texts that a grammar discards, none of which is empty. -/
structure Discards (g : Grammar) (P : List Char → Prop) : Prop where
  matches_iff : ∀ text, (∃ s ∈ g.discards, g.Matches s text) ↔ P text
  ne_nil : ∀ text, P text → text ≠ []

namespace Discards

variable {P : List Char → Prop}

theorem discarded_iff (hg : g.Discards P) (hchars : input.chars = before ++ after) :
    g.Discarded input (byteLength before) j ↔
      ∃ text rest, after = text ++ rest ∧ j = byteLength (before ++ text) ∧ P text := by
  constructor
  · rintro ⟨-, s, hs, hcovers⟩
    obtain ⟨text, rest, hafter, hj, hmatches⟩ := (covers_iff hchars).mp hcovers
    exact ⟨text, rest, hafter, hj, (hg.matches_iff text).mp ⟨s, hs, hmatches⟩⟩
  · rintro ⟨text, rest, hafter, hj, htext⟩
    obtain ⟨s, hs, hmatches⟩ := (hg.matches_iff text).mpr htext
    refine ⟨?_, s, hs, (covers_iff hchars).mpr ⟨text, rest, hafter, hj, hmatches⟩⟩
    have hpos : byteLength text ≠ 0 := fun h => hg.ne_nil text htext (byteLength_eq_zero_iff.mp h)
    rw [hj, byteLength_append]
    omega

/-- Where no discarded text begins skipping stops. -/
theorem skipsTo_self (hg : g.Discards P) (hchars : input.chars = before ++ after)
    (hafter : ∀ text rest, after = text ++ rest → ¬P text) :
    SkipsTo (g.Discarded input) (byteLength before) (byteLength before) := by
  refine .stop fun k hk => ?_
  obtain ⟨text, rest, hsplit, -, htext⟩ := (hg.discarded_iff hchars).mp hk
  exact hafter text rest hsplit htext

/-- A discarded text that is the longest one at its place is skipped. -/
theorem skipsTo_text (hg : g.Discards P) {text : List Char} (htext : P text)
    (hchars : input.chars = before ++ (text ++ after))
    (hlongest : ∀ text' rest, text ++ after = text' ++ rest → P text' → text' <+: text)
    (hj : SkipsTo (g.Discarded input) (byteLength (before ++ text)) j) :
    SkipsTo (g.Discarded input) (byteLength before) j := by
  refine .go ((hg.discarded_iff hchars).mpr ⟨text, after, rfl, rfl, htext⟩) (fun m hm => ?_) hj
  obtain ⟨text', rest, heq, rfl, htext'⟩ := (hg.discarded_iff hchars).mp hm
  obtain ⟨more, rfl⟩ := hlongest text' rest heq htext'
  simp only [byteLength_append]
  omega

end Discards

theorem le_skipFrom (steps i : Nat) : i ≤ (g.skipFrom input steps i).1 := by
  induction steps generalizing i with
  | zero => exact Nat.le_refl i
  | succ steps ih =>
    rw [skipFrom]
    split
    · exact Nat.le_refl i
    · exact (Nat.le_add_right _ _).trans (ih _)

theorem le_skipEnd (i : Nat) : i ≤ g.skipEnd input i :=
  le_skipFrom _ i

/-! ### Tokens -/

/-- The tokens among some targets that begin at an offset, with their ends. -/
def tokensAt (g : Grammar) (input : Indexed) (i : Nat) (targets : List SymbolId) :
    List (SymbolId × Nat) :=
  (Lexer.split g ((g.matchesAt targets (input.suffixAt i)).map fun (s, n) => (s, i + n))).1

theorem mem_of_mem_split {found : List (SymbolId × Nat)} {f : SymbolId × Nat}
    (h : f ∈ (Lexer.split g found).1) : f ∈ found := by
  rw [Lexer.split] at h
  split at h
  · rw [List.partition_eq_filter_filter] at h
    exact (List.mem_filter.mp h).1
  · exact h

/-- A token is one of the targets and derives the text up to its end. -/
theorem covers_of_mem_tokensAt (hg : g.Lexicon) {targets : List SymbolId}
    (ht : ∀ s ∈ targets, g.charClass? s = none) {i : Nat} {s : SymbolId} {j : Nat}
    (h : (s, j) ∈ g.tokensAt input i targets) : s ∈ targets ∧ i < j ∧ g.Covers input s i j := by
  obtain ⟨⟨s', n⟩, hf, hpair⟩ := List.mem_map.mp (mem_of_mem_split h)
  obtain ⟨rfl, rfl⟩ := Prod.mk.inj hpair
  obtain ⟨hs, hpos, hcovers⟩ := (mem_matchesAt_suffixAt_iff hg ht i s' n).mp hf
  exact ⟨hs, by omega, hcovers⟩

/-- Without longest matching the tokens are all targets that derive a text. -/
theorem mem_tokensAt_iff (hg : g.Lexicon) (hlongest : g.longestMatch = false)
    {targets : List SymbolId} (ht : ∀ s ∈ targets, g.charClass? s = none) {i : Nat}
    {s : SymbolId} {j : Nat} :
    (s, j) ∈ g.tokensAt input i targets ↔ s ∈ targets ∧ i < j ∧ g.Covers input s i j := by
  refine ⟨covers_of_mem_tokensAt hg ht, ?_⟩
  rintro ⟨hs, hij, hcovers⟩
  obtain ⟨n, rfl⟩ := Nat.exists_eq_add_of_le hij.le
  rw [tokensAt, Lexer.split, hlongest, if_neg (by simp)]
  refine List.mem_map.mpr ⟨(s, n), ?_, rfl⟩
  exact (mem_matchesAt_suffixAt_iff hg ht i s n).mpr ⟨hs, by omega, hcovers⟩

/-- The maximum of numbers is one of them that no other one exceeds. -/
theorem eq_foldl_max_iff {ns : List Nat} {n : Nat} (hn : n ∈ ns) :
    n = ns.foldl max 0 ↔ ∀ m ∈ ns, m ≤ n := by
  have hmax : (0 :: ns).max? = some (ns.foldl max 0) := List.max?_cons'
  rw [eq_comm, ← Option.some.injEq, ← hmax, List.max?_eq_some_iff, List.forall_mem_cons]
  simp [hn]

/-- With longest matching the tokens are those targets that derive the longest text. -/
theorem mem_tokensAt_iff_longest (hg : g.Lexicon) (hlongest : g.longestMatch = true)
    {targets : List SymbolId} (ht : ∀ s ∈ targets, g.charClass? s = none) {i : Nat}
    {s : SymbolId} {j : Nat} :
    (s, j) ∈ g.tokensAt input i targets ↔ s ∈ targets ∧ (i < j ∧ g.Covers input s i j) ∧
      ∀ s' ∈ targets, ∀ j', i < j' → g.Covers input s' i j' → j' ≤ j := by
  have hmem (s : SymbolId) (j : Nat) :
      (s, j) ∈ (g.matchesAt targets (input.suffixAt i)).map (fun (s, n) => (s, i + n)) ↔
        s ∈ targets ∧ i < j ∧ g.Covers input s i j := by
    rw [List.mem_map]
    constructor
    · rintro ⟨⟨s', n⟩, hf, hpair⟩
      obtain ⟨rfl, rfl⟩ := Prod.mk.inj hpair
      obtain ⟨hs, hpos, hcovers⟩ := (mem_matchesAt_suffixAt_iff hg ht i s' n).mp hf
      exact ⟨hs, by omega, hcovers⟩
    · rintro ⟨hs, hij, hcovers⟩
      obtain ⟨n, rfl⟩ := Nat.exists_eq_add_of_le hij.le
      exact ⟨(s, n), (mem_matchesAt_suffixAt_iff hg ht i s n).mpr ⟨hs, by omega, hcovers⟩, rfl⟩
  rw [tokensAt, Lexer.split, if_pos hlongest]
  simp only [List.partition_eq_filter_filter, List.mem_filter, beq_iff_eq]
  generalize (g.matchesAt targets (input.suffixAt i)).map (fun (s, n) => (s, i + n)) = found
    at hmem
  rw [hmem, and_assoc]
  refine and_congr_right fun hs => and_congr_right fun hij => ?_
  have hj : j ∈ found.map (·.2) := List.mem_map.mpr ⟨(s, j), (hmem s j).mpr ⟨hs, hij⟩, rfl⟩
  rw [eq_foldl_max_iff hj, List.forall_mem_map]
  constructor
  · intro h s' hs' j' hlt hcovers
    exact h (s', j') ((hmem s' j').mpr ⟨hs', hlt, hcovers⟩)
  · rintro h ⟨s', j'⟩ hf
    obtain ⟨hs', hlt, hcovers⟩ := (hmem s' j').mp hf
    exact h s' hs' j' hlt hcovers

end Grammar

/-! ### Memory -/

namespace Lexer

variable {g : Grammar} {input : Indexed} {l : Lexer}

/-- What a lexer remembers is right: its answers are those that it would give again. -/
structure Faithful (g : Grammar) (input : Indexed) (l : Lexer) : Prop where
  skips : ∀ i j, l.skips[i]? = some j → j = g.skipEnd input i
  answers : ∀ i targets found, l.answer? i targets = some found →
    found = g.tokensAt input i targets

theorem faithful_initial (g : Grammar) (input : Indexed) : initial.Faithful g input where
  skips i j h := by simp [initial] at h
  answers i targets found h := by simp [initial, answer?] at h

theorem Faithful.skip_eq (hl : l.Faithful g input) (i : Nat) :
    (l.skip g input i).1 = g.skipEnd input i := by
  rw [skip]
  split
  next j hj => exact hl.skips i j hj
  next => rfl

theorem Faithful.skip (hl : l.Faithful g input) (i : Nat) :
    (l.skip g input i).2.Faithful g input := by
  rw [Lexer.skip]
  split
  next => exact hl
  next =>
    refine ⟨fun k j h => ?_, fun k targets found h => hl.answers k targets found h⟩
    rw [Std.TreeMap.getElem?_insert] at h
    split at h
    next hsame =>
      obtain rfl : i = k := by simpa using hsame
      exact (Option.some_inj.mp h).symm
    next => exact hl.skips k j h

/-- A lexer that was asked to skip remembers where that ended. -/
theorem getElem?_skips_skip (hl : l.Faithful g input) (i k : Nat) :
    (l.skip g input i).2.skips[k]? =
      if k = i then some (g.skipEnd input i) else l.skips[k]? := by
  rw [Lexer.skip]
  split
  next j hj =>
    split
    next hsame => rw [hsame, hj, hl.skips i j hj]
    next => rfl
  next hnone =>
    rw [Std.TreeMap.getElem?_insert]
    by_cases hsame : k = i
    · rw [if_pos hsame, if_pos (by simp [hsame])]
      rfl
    · rw [if_neg hsame, if_neg (by simpa using Ne.symm hsame)]

theorem Faithful.lexemes_eq (hl : l.Faithful g input) (i : Nat) (expected : List SymbolId) :
    (l.lexemes g input i expected).1 = g.tokensAt input i (ascending expected) := by
  rw [lexemes]
  simp only
  split
  next found hfound => exact hl.answers i _ found hfound
  next => rfl

theorem Faithful.lexemes (hl : l.Faithful g input) (i : Nat) (expected : List SymbolId) :
    (l.lexemes g input i expected).2.Faithful g input := by
  rw [Lexer.lexemes]
  simp only
  split
  next => exact hl
  next =>
    refine ⟨hl.skips, fun k targets found h => ?_⟩
    rw [answer?_remember] at h
    split at h
    next hsame =>
      obtain ⟨rfl, rfl⟩ := hsame
      exact (Option.some_inj.mp h).symm
    next => exact hl.answers k targets found h

theorem skips_lexemes (i : Nat) (expected : List SymbolId) :
    (l.lexemes g input i expected).2.skips = l.skips := by
  rw [lexemes]
  simp only
  split <;> rfl

end Lexer

end Scannerless
