import Mathlib.Computability.Language
import Mathlib.Order.CompletePartialOrder
import Scannerless.Proofs.Lexer.Matching

/-!
# The language of symbols

What a list of symbols derives by the lexical rules is a language of characters: that of
symbols one behind the other is the product of theirs, and that of a symbol with rules is
the union over its rules.

## Main definitions

- `Grammar.yield` — the texts that a list of symbols derives.
- `Grammar.Bounds` — a language for each symbol that its rules keep.

## Main statements

- `Grammar.yield_append` — symbols one behind the other.
- `Grammar.prod_le_yield` — the product of what symbols derive at least.
- `Grammar.Bounds.yield_le` — what symbols derive at most.
-/

namespace Scannerless

namespace RuleTable

variable {t : RuleTable}

/-- A step in a list of symbols is one in its front or in its back. -/
theorem Rewrites.append_inv {u v w : List SymbolId} (h : t.Rewrites (u ++ v) w) :
    (∃ u', t.Rewrites u u' ∧ w = u' ++ v) ∨ ∃ v', t.Rewrites v v' ∧ w = u ++ v' := by
  generalize huv : u ++ v = uv at h
  obtain @⟨id, s, front, back, hs⟩ := h
  rcases List.append_eq_append_iff.mp huv with ⟨mid, hfront, hv⟩ | ⟨mid, hu, hback⟩
  · subst hv hfront
    exact Or.inr ⟨mid ++ t.rhs id ++ back, .expand mid back hs, by simp⟩
  · cases mid with
    | nil =>
      obtain rfl : front = u := by simpa using hu.symm
      obtain rfl : s :: back = v := by simpa using hback
      exact Or.inr ⟨t.rhs id ++ back, .expand [] back hs, by simp⟩
    | cons x mid =>
      obtain ⟨rfl, rfl⟩ := List.cons.inj hback
      subst hu
      exact Or.inl ⟨front ++ t.rhs id ++ mid, .expand front mid hs, by simp⟩

/-- What a list of symbols derives is what its front and its back derive. -/
theorem derives_append_iff {u v w : List SymbolId} :
    t.Derives (u ++ v) w ↔ ∃ u' v', t.Derives u u' ∧ t.Derives v v' ∧ w = u' ++ v' := by
  constructor
  · intro h
    induction h with
    | refl => exact ⟨u, v, .refl, .refl, rfl⟩
    | tail _ hstep ih =>
      obtain ⟨u', v', hu, hv, rfl⟩ := ih
      rcases hstep.append_inv with ⟨u'', hu', rfl⟩ | ⟨v'', hv', rfl⟩
      · exact ⟨u'', v', hu.tail hu', hv, rfl⟩
      · exact ⟨u', v'', hu, hv.tail hv', rfl⟩
  · rintro ⟨u', v', hu, hv, rfl⟩
    exact hu.append hv

end RuleTable

namespace Grammar

variable {g : Grammar}

/-- The texts that a list of symbols derives by the lexical rules. -/
def yield (g : Grammar) (ss : List SymbolId) : Language Char :=
  {text | ∃ w, g.lexical.Derives ss w ∧ List.Forall₂ g.Accepts w text}

theorem mem_yield {ss : List SymbolId} {text : List Char} :
    text ∈ g.yield ss ↔ ∃ w, g.lexical.Derives ss w ∧ List.Forall₂ g.Accepts w text :=
  Iff.rfl

theorem matches_iff_mem_yield {s : SymbolId} {text : List Char} :
    g.Matches s text ↔ text ∈ g.yield [s] :=
  Iff.rfl

theorem yield_append (as bs : List SymbolId) : g.yield (as ++ bs) = g.yield as * g.yield bs := by
  ext text
  rw [Language.mem_mul, mem_yield]
  constructor
  · rintro ⟨w, hderives, hall⟩
    obtain ⟨u, v, hu, hv, rfl⟩ := RuleTable.derives_append_iff.mp hderives
    have hfront := List.forall₂_take_append _ u v hall.flip
    have hback := List.forall₂_drop_append _ u v hall.flip
    exact ⟨_, ⟨u, hu, hfront.flip⟩, _, ⟨v, hv, hback.flip⟩, List.take_append_drop _ _⟩
  · rintro ⟨a, ⟨u, hu, hau⟩, b, ⟨v, hv, hbv⟩, rfl⟩
    exact ⟨u ++ v, hu.append hv, List.rel_append hau hbv⟩

theorem yield_nil : g.yield [] = 1 := by
  ext text
  rw [Language.mem_one, mem_yield]
  constructor
  · rintro ⟨w, hderives, hall⟩
    -- No rule applies where there is no symbol.
    rcases Relation.ReflTransGen.cases_head hderives with rfl | ⟨v, hstep, -⟩
    · cases hall
      rfl
    · generalize hnil : ([] : List SymbolId) = u at hstep
      obtain @⟨id, s, front, back, -⟩ := hstep
      simp at hnil
  · rintro rfl
    exact ⟨[], .refl, .nil⟩

theorem yield_cons (s : SymbolId) (ss : List SymbolId) :
    g.yield (s :: ss) = g.yield [s] * g.yield ss := by
  rw [← yield_append, List.singleton_append]

/-- A symbol derives what the right side of one of its rules derives. -/
theorem yield_rhs_le {id : RuleId} {s : SymbolId} (h : g.lexical.lhs? id = some s) :
    g.yield (g.lexical.rhs id) ≤ g.yield [s] := by
  rintro text ⟨w, hderives, hall⟩
  exact ⟨w, .of_rhs h hderives, hall⟩

/-- The product of what symbols derive at least. -/
theorem prod_le_yield {ss : List SymbolId} {Ls : List (Language Char)}
    (h : List.Forall₂ (fun s L => L ≤ g.yield [s]) ss Ls) : Ls.prod ≤ g.yield ss := by
  induction h with
  | nil => rw [List.prod_nil, yield_nil]
  | cons hs _ ih =>
    rw [List.prod_cons, yield_cons]
    exact mul_le_mul' hs ih

/-- Languages for symbols that are kept by their rules: a character is in the language of its
    symbol, and a rule of a symbol makes up no more than the language of the symbol. -/
structure Bounds (g : Grammar) (bound : SymbolId → Language Char → Prop) : Prop where
  character : ∀ s L c, bound s L → g.Accepts s c → [c] ∈ L
  rule : ∀ id s L, bound s L → g.lexical.lhs? id = some s →
    ∃ Ls, List.Forall₂ bound (g.lexical.rhs id) Ls ∧ Ls.prod ≤ L

variable {bound : SymbolId → Language Char → Prop}

theorem Bounds.mem_prod_of_accepts (h : g.Bounds bound) {w : List SymbolId}
    {Ls : List (Language Char)} (hw : List.Forall₂ bound w Ls) {text : List Char}
    (hall : List.Forall₂ g.Accepts w text) : text ∈ Ls.prod := by
  induction hw generalizing text with
  | nil =>
    cases hall
    exact Language.nil_mem_one
  | cons hs _ ih =>
    cases hall with
    | cons haccepts hall =>
      rw [List.prod_cons]
      exact Language.append_mem_mul (h.character _ _ _ hs haccepts) (ih hall)

/-- What symbols derive at most. -/
theorem Bounds.yield_le (h : g.Bounds bound) {ss : List SymbolId} {Ls : List (Language Char)}
    (hss : List.Forall₂ bound ss Ls) : g.yield ss ≤ Ls.prod := by
  rintro text ⟨w, hderives, hall⟩
  -- From the characters back to the symbols: each step puts a rule on top of a text.
  induction hderives using Relation.ReflTransGen.head_induction_on generalizing Ls with
  | refl => exact h.mem_prod_of_accepts hss hall
  | head hstep _ ih =>
    obtain @⟨id, s, front, back, hs⟩ := hstep
    have hfront := List.forall₂_take_append _ front (s :: back) hss.flip
    have hrest := (List.forall₂_drop_append _ front (s :: back) hss.flip).flip
    have hsplit := List.take_append_drop front.length Ls
    generalize Ls.take front.length = Fs at hfront hsplit
    generalize Ls.drop front.length = Rs at hrest hsplit
    subst hsplit
    cases hrest with
    | @cons _ L _ Bs hL hback =>
      obtain ⟨Ms, hMs, hle⟩ := h.rule id s L hL hs
      have hmem := ih (List.rel_append (List.rel_append hfront.flip hMs) hback)
      rw [List.prod_append, List.prod_append] at hmem
      rw [List.prod_append, List.prod_cons, ← mul_assoc]
      exact mul_le_mul' (mul_le_mul' le_rfl hle) le_rfl hmem

end Grammar

end Scannerless
