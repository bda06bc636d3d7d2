import Mathlib.Data.List.Sort
import Scannerless.Proofs.Grammar.Compiled
import Scannerless.Proofs.Lexer.Skipping

/-!
# The list that a lexer answers

What a lexer finds among some targets is not only the right matches: it comes as a list with
each of them once, by their ends and then by the places of the targets. A lexer gives this list
whatever it was asked before.

## Main definitions

- `MatchBefore` — the order of matches.
- `Grammar.Lists` — a list has all matches among some targets, in their order.
- `Lexer.Request`, `Lexer.serveAll` — what a lexer may be asked, and the lexer after that.

## Main statements

- `Grammar.lists_endsAt` — reading characters with a chart gives it.
- `lexemes_exact` — so does a lexer after any requests.
-/

namespace Scannerless

open Text

/-! ### The order of matches -/

/-- Matches come by their ends, and those with one end by the places of their symbols among
    some targets. -/
def MatchBefore (targets : List SymbolId) (f f' : SymbolId × Nat) : Prop :=
  f.2 < f'.2 ∨ f.2 = f'.2 ∧ targets.idxOf f.1 < targets.idxOf f'.1

section

variable {targets : List SymbolId}

instance : Std.Irrefl (MatchBefore targets) where
  irrefl f h := by
    rw [MatchBefore] at h
    omega

/-- Distinct targets stand at ascending places. -/
theorem pairwise_idxOf (h : targets.Nodup) :
    targets.Pairwise fun s s' => targets.idxOf s < targets.idxOf s' := by
  refine List.pairwise_iff_getElem.mpr fun i j hi hj hij => ?_
  rwa [h.idxOf_getElem i hi, h.idxOf_getElem j hj]

end

namespace Grammar

variable {g : Grammar} {targets : List SymbolId} {input : Indexed} {i : Nat}

theorem ordered_endingAt (ht : targets.Nodup) (k length : Nat) (chart : Chart g.lexical) :
    ((g.endingAt targets k chart).map (·, length)).Pairwise (MatchBefore targets) :=
  List.pairwise_map.mpr (((pairwise_idxOf ht).filter _).imp fun h => Or.inr ⟨rfl, h⟩)

/-- Reading on finds matches with greater lengths only. -/
theorem ordered_matchesFrom (ht : targets.Nodup) {k length : Nat} {chart : Chart g.lexical}
    (cs : List Char) :
    (g.matchesFrom targets k length chart cs).Pairwise (MatchBefore targets) := by
  induction cs generalizing k length chart with
  | nil => exact ordered_endingAt ht _ _ _
  | cons c cs ih =>
    simp only [matchesFrom]
    split
    · exact ordered_endingAt ht _ _ _
    · refine List.pairwise_append.mpr ⟨ordered_endingAt ht _ _ _, ih, fun f hf f' hf' => ?_⟩
      obtain ⟨s, -, rfl⟩ := List.mem_map.mp hf
      have hle := le_of_mem_matchesFrom hf'
      have hpos := c.utf8Size_pos
      exact Or.inl (by omega)

/-- The matches among some targets that begin at an offset of an input, with their ends. -/
def endsAt (g : Grammar) (input : Indexed) (i : Nat) (targets : List SymbolId) :
    List (SymbolId × Nat) :=
  (g.matchesAt targets (input.suffixAt i)).map fun (s, n) => (s, i + n)

/-- A list has all matches among some targets that begin at an offset, each once and in their
    order. -/
structure Lists (g : Grammar) (input : Indexed) (i : Nat) (targets : List SymbolId)
    (found : List (SymbolId × Nat)) : Prop where
  mem_iff : ∀ s j, (s, j) ∈ found ↔ s ∈ targets ∧ i < j ∧ g.Covers input s i j
  ordered : found.Pairwise (MatchBefore targets)

namespace Lists

variable {found : List (SymbolId × Nat)}

theorem nodup (h : g.Lists input i targets found) : found.Nodup :=
  h.ordered.nodup

end Lists

/-- Reading characters with a chart gives the list of all matches. -/
theorem lists_endsAt (hg : g.Lexicon) (ht : ∀ s ∈ targets, g.charClass? s = none)
    (hdistinct : targets.Nodup) : g.Lists input i targets (g.endsAt input i targets) where
  mem_iff s j := by
    rw [endsAt, List.mem_map]
    constructor
    · rintro ⟨⟨s', n⟩, hf, hpair⟩
      obtain ⟨rfl, rfl⟩ := Prod.mk.inj hpair
      obtain ⟨hs, hpos, hcovers⟩ := (mem_matchesAt_suffixAt_iff hg ht i s' n).mp hf
      exact ⟨hs, by omega, hcovers⟩
    · rintro ⟨hs, hij, hcovers⟩
      obtain ⟨n, rfl⟩ := Nat.exists_eq_add_of_le hij.le
      exact ⟨(s, n), (mem_matchesAt_suffixAt_iff hg ht i s n).mpr ⟨hs, by omega, hcovers⟩, rfl⟩
  ordered := by
    refine List.pairwise_map.mpr (((ordered_matchesFrom hdistinct _).filter _).imp ?_)
    rintro f f' (h | ⟨heq, h⟩)
    · exact Or.inl (Nat.add_lt_add_left h i)
    · exact Or.inr ⟨congrArg (i + ·) heq, h⟩

theorem tokensAt_eq_endsAt (hlongest : g.longestMatch = false) :
    g.tokensAt input i targets = g.endsAt input i targets := by
  rw [tokensAt, Lexer.split, hlongest, if_neg Bool.false_ne_true]
  rfl

end Grammar

/-! ### Requests -/

theorem ascending_eq {ss ss' : List SymbolId} (h : ∀ s, s ∈ ss ↔ s ∈ ss') :
    ascending ss = ascending ss' :=
  (sorted_ascending ss).eq_of_mem_iff (sorted_ascending ss') fun s => by
    rw [mem_ascending, mem_ascending, h]

namespace Lexer

/-- What a lexer may be asked. -/
inductive Request where
  | skip (offset : Nat)
  | lexemes (offset : Nat) (expected : List SymbolId)

variable {g : Grammar} {input : Indexed} {l : Lexer}

/-- The lexer after it was asked something. -/
def serve (g : Grammar) (input : Indexed) (l : Lexer) : Request → Lexer
  | .skip offset => (l.skip g input offset).2
  | .lexemes offset expected => (l.lexemes g input offset expected).2

/-- The lexer after several requests. -/
def serveAll (g : Grammar) (input : Indexed) (l : Lexer) (requests : List Request) : Lexer :=
  requests.foldl (serve g input) l

theorem Faithful.serve (h : l.Faithful g input) (request : Request) :
    (l.serve g input request).Faithful g input := by
  cases request with
  | skip offset => exact h.skip offset
  | lexemes offset expected => exact h.lexemes offset expected

/-- No request makes a lexer remember anything that is wrong. -/
theorem Faithful.serveAll (h : l.Faithful g input) (requests : List Request) :
    (l.serveAll g input requests).Faithful g input := by
  induction requests generalizing l with
  | nil => exact h
  | cons request requests ih => exact ih (h.serve request)

end Lexer

/-- Among distinct lexemes those that derive a text from an offset on are found, each with
    each of its ends once, by ends and then by the places of the lexemes; whether a lexeme
    matches does not depend on the other ones. Without longest matching a lexer answers with
    this list for the set of the lexemes that it is asked for, whatever it was asked before. -/
theorem lexemes_exact {g : Grammar} (hg : g.IsCompiled) (input : Indexed) (offset : Nat) :
    (∀ targets : List SymbolId, targets.Nodup → (∀ s ∈ targets, g.isLexeme s = true) →
      (g.endsAt input offset targets).Nodup ∧
      (g.endsAt input offset targets).Pairwise (MatchBefore targets) ∧
      (∀ s j, (s, j) ∈ g.endsAt input offset targets ↔
        s ∈ targets ∧ offset < j ∧ g.Covers input s offset j) ∧
      ∀ s ∈ targets, ∀ j,
        (s, j) ∈ g.endsAt input offset targets ↔ (s, j) ∈ g.endsAt input offset [s]) ∧
    (g.longestMatch = false → ∀ (requests : List Lexer.Request) (expected : List SymbolId),
      ((Lexer.initial.serveAll g input requests).lexemes g input offset expected).1 =
          g.endsAt input offset (ascending expected) ∧
        ∀ requests' expected', (∀ s, s ∈ expected ↔ s ∈ expected') →
          ((Lexer.initial.serveAll g input requests).lexemes g input offset expected).1 =
            ((Lexer.initial.serveAll g input requests').lexemes g input offset expected').1) := by
  have hanswer (hlongest : g.longestMatch = false) (requests : List Lexer.Request)
      (expected : List SymbolId) :
      ((Lexer.initial.serveAll g input requests).lexemes g input offset expected).1 =
        g.endsAt input offset (ascending expected) := by
    rw [((Lexer.faithful_initial g input).serveAll requests).lexemes_eq,
      Grammar.tokensAt_eq_endsAt hlongest]
  refine ⟨fun targets hdistinct hlexemes => ?_, fun hlongest requests expected =>
    ⟨hanswer hlongest requests expected, fun requests' expected' hsame => ?_⟩⟩
  · have hplain {ss : List SymbolId} (hss : ∀ s ∈ ss, g.isLexeme s = true) :
        ∀ s ∈ ss, g.charClass? s = none := fun s hs =>
      Grammar.charClass?_eq_none (Grammar.isLexeme_iff.mp (hss s hs)) (by simp)
    have hlists : g.Lists input offset targets (g.endsAt input offset targets) :=
      Grammar.lists_endsAt hg.coherent.lexicon (hplain hlexemes) hdistinct
    refine ⟨hlists.nodup, hlists.ordered, hlists.mem_iff, fun s hs j => ?_⟩
    have halone : g.Lists input offset [s] (g.endsAt input offset [s]) :=
      Grammar.lists_endsAt hg.coherent.lexicon
        (hplain (List.forall_mem_singleton.mpr (hlexemes s hs))) (List.nodup_singleton s)
    rw [hlists.mem_iff, halone.mem_iff]
    simp [hs]
  · rw [hanswer hlongest, hanswer hlongest, ascending_eq hsame]

/-- Names, and a key that is spelled like one. -/
def Definition.keys : Definition :=
  ⟨[.rule "text" ["name"], .rule "text" ["key"], .lexeme "name" ["'i'"],
    .lexeme "name" ["'i'", "'f'"], .lexeme "key" ["'if'"]], "keys"⟩

/-- A name and a key begin a text, and a lexer says so that was asked about the key alone. -/
theorem lexemes_exact_keys :
    ∃ g name key, Definition.keys.compile = .ok g ∧ g.findSymbol? "name" = some name ∧
      g.findSymbol? "key" = some key ∧
      g.Covers (.ofList "if".toList) name 0 1 ∧ g.Covers (.ofList "if".toList) key 0 2 ∧
      ((Lexer.initial.serveAll g (.ofList "if".toList) [.skip 0, .lexemes 0 [key]]).lexemes g
        (.ofList "if".toList) 0 [key, name, key]).1 = [(name, 1), (name, 2), (key, 2)] := by
  have hrun : Definition.keys.compile.toOption.any (fun g => !g.longestMatch &&
      g.isLexeme 1 && g.isLexeme 2 && g.findSymbol? "name" == some 1 &&
      g.findSymbol? "key" == some 2 &&
      g.endsAt (.ofList "if".toList) 0 [1, 2] == [(1, 1), (1, 2), (2, 2)]) = true := by
    decide +kernel
  obtain ⟨g, hg, htest⟩ := exists_eq_ok_of_any hrun
  simp only [Bool.and_eq_true, Bool.not_eq_true', beq_iff_eq] at htest
  obtain ⟨⟨⟨⟨⟨hlongest, hname⟩, hkey⟩, hname'⟩, hkey'⟩, hends⟩ := htest
  obtain ⟨hlists, hserves⟩ := lexemes_exact (Or.inl ⟨_, hg⟩) (.ofList "if".toList) 0
  obtain ⟨-, -, hmem, -⟩ := hlists [1, 2] (by decide) (by simp [hname, hkey])
  rw [hends] at hmem
  refine ⟨g, 1, 2, hg, hname', hkey', ((hmem 1 1).mp (by decide)).2.2,
    ((hmem 2 2).mp (by decide)).2.2, ?_⟩
  have hascending : ascending [2, 1, 2] = [1, 2] := by
    decide +kernel
  rw [(hserves hlongest [.skip 0, .lexemes 0 [2]] [2, 1, 2]).1, hascending, hends]

end Scannerless
