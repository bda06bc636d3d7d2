import Scannerless.Proofs.Calculator.Grammar
import Scannerless.Proofs.Evaluation.Distinct
import Scannerless.Proofs.Evaluation.Transport

/-!
# What the productions of expressions make

A production makes an expression of the values on its right side, one on top of the expressions
among them, or the one that it takes in from the level below. The expression tells the values and
what was done with them.

## Main definitions

- `Calculator.Syntax` — what productions make expressions of.
- `Calculator.Makes` — what an expression is made of.
- `Calculator.Part.Means` — the values of parts with their words.
- `Calculator.Yields` — a production makes an expression of its parts.

## Main statements

- `Calculator.Makes.unique` — an expression tells what it is made of.
- `Calculator.exists_yields` — productions make expressions of their parts.
-/

namespace Scannerless.Calculator

open Text Recognition

/-! ### Making -/

/-- What productions make expressions of: words and expressions. -/
inductive Syntax where
  | word (text : String)
  | expr (e : Expr)
  deriving DecidableEq

/-- The word of a mark. -/
def Syntax.mark (c : Char) : Syntax :=
  word (String.ofList [c])

/-- An expression is made of values by handing it on, or by an action. -/
inductive Makes : Semantics → List Syntax → Expr → Prop where
  | ascent (e : Expr) : Makes .splice [.expr e] e
  | number (text : String) : Makes (.apply (some (.named "num"))) [.word text] (.number text)
  | group (e : Expr) :
    Makes (.apply (some (.named "parens"))) [.mark '(', .expr e, .mark ')'] (.group e)
  | call (name : String) (e : Expr) :
    Makes (.apply (some (.named "call"))) [.word name, .mark '(', .expr e, .mark ')']
      (.call name e)
  | negate (e : Expr) : Makes (.apply (some (.named "neg"))) [.mark '-', .expr e] (.negate e)
  | binary (op : Operator) (a b : Expr) :
    Makes (.apply (some (.named op.action))) [.expr a, .mark op.mark, .expr b] (.binary op a b)

/-- An expression tells what it is made of, if it is known whether it was handed on. -/
theorem Makes.unique {semantics semantics' : Semantics} {values values' : List Syntax} {e : Expr}
    (h : Makes semantics values e) (h' : Makes semantics' values' e)
    (hsplice : semantics = .splice ↔ semantics' = .splice) :
    semantics = semantics' ∧ values = values' := by
  cases h with
  | ascent =>
    cases h' with
    | ascent => exact ⟨rfl, rfl⟩
    | _ => cases hsplice.mp rfl
  | _ =>
    cases h' with
    | ascent => cases hsplice.mpr rfl
    | _ => exact ⟨rfl, rfl⟩

/-! ### Parts -/

/-- The values of parts with the words that these are written with. -/
def Part.Means : Part → List Syntax → List String → Prop
  | tier level, values, words => ∃ e : Expr, values = [.expr e] ∧ e.Shaped ∧ e.level ≤ level ∧
      words = e.tokens.map Token.text
  | part, values, words => ∃ w : String, values = [.word w] ∧ part.Spells w.toList ∧ words = [w]

section

variable {parts : List (Portion Syntax)} {rhs : List Part}

/-- The parts of a right side mean what their portions say. -/
abbrev MeansAll (rhs : List Part) (parts : List (Portion Syntax)) : Prop :=
  List.Forall₂ (fun p portion => p.Means portion.values portion.words) rhs parts

theorem meansAll_tier {level : Nat} (h : MeansAll (.tier level :: rhs) parts) :
    ∃ e rest, e.Shaped ∧ e.level ≤ level ∧ MeansAll rhs rest ∧
      parts.flatMap Portion.values = .expr e :: rest.flatMap Portion.values ∧
      parts.flatMap Portion.words = e.tokens.map Token.text ++ rest.flatMap Portion.words := by
  obtain ⟨⟨values, words⟩, rest, ⟨e, hvalues, hshaped, hlevel, hwords⟩, hrest, rfl⟩ :=
    List.forall₂_cons_left_iff.mp h
  refine ⟨e, rest, hshaped, hlevel, hrest, ?_, ?_⟩
  · rw [List.flatMap_cons, hvalues]
    rfl
  · rw [List.flatMap_cons, hwords]

theorem meansAll_word {p : Part} (hp : p ∈ Part.lexemes) (h : MeansAll (p :: rhs) parts) :
    ∃ w rest, p.Spells w.toList ∧ MeansAll rhs rest ∧
      parts.flatMap Portion.values = .word w :: rest.flatMap Portion.values ∧
      parts.flatMap Portion.words = w :: rest.flatMap Portion.words := by
  obtain ⟨⟨values, words⟩, rest, hmeans, hrest, rfl⟩ := List.forall₂_cons_left_iff.mp h
  have hword : ∃ w : String, values = [.word w] ∧ p.Spells w.toList ∧ words = [w] := by
    cases p with
    | tier level => simp [Part.lexemes] at hp
    | _ => exact hmeans
  obtain ⟨w, rfl, hspells, rfl⟩ := hword
  exact ⟨w, rest, hspells, hrest, rfl, rfl⟩

theorem meansAll_mark {c : Char} (h : MeansAll (.mark c :: rhs) parts) :
    ∃ rest, MeansAll rhs rest ∧
      parts.flatMap Portion.values = .mark c :: rest.flatMap Portion.values ∧
      parts.flatMap Portion.words = (Token.mark c).text :: rest.flatMap Portion.words := by
  obtain ⟨⟨values, words⟩, rest, ⟨w, rfl, hspells, rfl⟩, hrest, rfl⟩ :=
    List.forall₂_cons_left_iff.mp h
  have hspells : w.toList = [c] := hspells
  obtain rfl : w = String.ofList [c] := by rw [← hspells, String.ofList_toList]
  exact ⟨rest, hrest, rfl, rfl⟩

theorem meansAll_nil (h : MeansAll [] parts) :
    parts.flatMap Portion.values = [] ∧ parts.flatMap Portion.words = [] := by
  obtain rfl := List.forall₂_nil_left_iff.mp h
  exact ⟨rfl, rfl⟩

end

/-! ### Productions -/

/-- A production makes an expression of its parts. The expression is as loose as the production
    says, unless it was handed on from the level below. -/
structure Yields (p : Production) (parts : List (Portion Syntax)) (e : Expr) : Prop where
  makes : Makes p.semantics (parts.flatMap Portion.values) e
  means : p.lhs.Means [.expr e] (parts.flatMap Portion.words)
  splice_iff : p.semantics = .splice ↔ p.lhs ≠ .tier e.level

section

variable {parts : List (Portion Syntax)}

theorem exists_yields_ascent {level : Nat} (h : MeansAll (ascent level).rhs parts) :
    ∃ e, Yields (ascent level) parts e := by
  obtain ⟨e, rest, hshaped, hlevel, hrest, hvalues, hwords⟩ := meansAll_tier h
  obtain ⟨hnone, hnone'⟩ := meansAll_nil hrest
  rw [hnone] at hvalues
  rw [hnone', List.append_nil] at hwords
  refine ⟨e, hvalues ▸ .ascent e, ⟨e, rfl, hshaped, Nat.le_succ_of_le hlevel, hwords⟩, ?_⟩
  refine iff_of_true rfl fun hlhs => ?_
  have hsame : level + 1 = e.level := Part.tier.inj hlhs
  omega

/-- An action makes an expression of the level of its production. -/
theorem yields_production {level : Nat} {rhs : List Part} {action : String} {e : Expr}
    (hmakes : Makes (.apply (some (.named action))) (parts.flatMap Portion.values) e)
    (hshaped : e.Shaped) (hlevel : e.level = level)
    (hwords : parts.flatMap Portion.words = e.tokens.map Token.text) :
    Yields (production level rhs action) parts e :=
  ⟨hmakes, ⟨e, rfl, hshaped, Nat.le_of_eq hlevel, hwords⟩,
    iff_of_false nofun (not_not_intro (congrArg Part.tier hlevel.symm))⟩

theorem exists_yields_number (h : MeansAll [.number] parts) :
    ∃ e, Yields (production 0 [.number] "num") parts e := by
  obtain ⟨w, rest, hspells, hrest, hvalues, hwords⟩ := meansAll_word (by decide) h
  obtain ⟨hnone, hnone'⟩ := meansAll_nil hrest
  rw [hnone] at hvalues
  rw [hnone'] at hwords
  exact ⟨.number w, yields_production (hvalues ▸ .number w) hspells rfl hwords⟩

/-- An expression in parentheses. -/
theorem meansAll_enclosed (h : MeansAll [.mark '(', .tier 5, .mark ')'] parts) :
    ∃ e : Expr, e.Shaped ∧
      parts.flatMap Portion.values = [.mark '(', .expr e, .mark ')'] ∧
      parts.flatMap Portion.words = (Expr.group e).tokens.map Token.text := by
  obtain ⟨front, hfront, hvalues, hwords⟩ := meansAll_mark h
  obtain ⟨e, back, hshaped, -, hback, hvalues', hwords'⟩ := meansAll_tier hfront
  obtain ⟨rest, hrest, hvalues'', hwords''⟩ := meansAll_mark hback
  obtain ⟨hnone, hnone'⟩ := meansAll_nil hrest
  refine ⟨e, hshaped, ?_, ?_⟩
  · rw [hvalues, hvalues', hvalues'', hnone]
  · rw [hwords, hwords', hwords'', hnone', Expr.tokens, List.cons_append, List.map_cons,
      List.map_append]
    rfl

theorem exists_yields_group (h : MeansAll [.mark '(', .tier 5, .mark ')'] parts) :
    ∃ e, Yields (production 0 [.mark '(', .tier 5, .mark ')'] "parens") parts e := by
  obtain ⟨e, hshaped, hvalues, hwords⟩ := meansAll_enclosed h
  exact ⟨.group e, yields_production (hvalues ▸ .group e) hshaped rfl hwords⟩

theorem exists_yields_call (h : MeansAll [.name, .mark '(', .tier 5, .mark ')'] parts) :
    ∃ e, Yields (production 0 [.name, .mark '(', .tier 5, .mark ')'] "call") parts e := by
  obtain ⟨w, rest, hspells, hrest, hvalues, hwords⟩ := meansAll_word (by decide) h
  obtain ⟨e, hshaped, hvalues', hwords'⟩ := meansAll_enclosed hrest
  rw [hvalues'] at hvalues
  rw [hwords'] at hwords
  exact ⟨.call w e, yields_production (hvalues ▸ .call w e) ⟨hspells, hshaped⟩ rfl hwords⟩

theorem exists_yields_negation (h : MeansAll [.mark '-', .tier 2] parts) :
    ∃ e, Yields (production 2 [.mark '-', .tier 2] "neg") parts e := by
  obtain ⟨back, hback, hvalues, hwords⟩ := meansAll_mark h
  obtain ⟨e, rest, hshaped, hlevel, hrest, hvalues', hwords'⟩ := meansAll_tier hback
  obtain ⟨hnone, hnone'⟩ := meansAll_nil hrest
  rw [hvalues', hnone] at hvalues
  rw [hwords', hnone', List.append_nil] at hwords
  exact ⟨.negate e, yields_production (hvalues ▸ .negate e) ⟨hshaped, hlevel⟩ rfl hwords⟩

theorem exists_yields_infixed {op : Operator} (h : MeansAll (infixed op).rhs parts) :
    ∃ e, Yields (infixed op) parts e := by
  obtain ⟨a, back, ha, hleft, hback, hvalues, hwords⟩ := meansAll_tier h
  obtain ⟨rest, hrest, hvalues', hwords'⟩ := meansAll_mark hback
  obtain ⟨b, none, hb, hright, hnone, hvalues'', hwords''⟩ := meansAll_tier hrest
  obtain ⟨hnil, hnil'⟩ := meansAll_nil hnone
  rw [hvalues', hvalues'', hnil] at hvalues
  rw [hwords', hwords'', hnil', List.append_nil] at hwords
  refine ⟨.binary op a b, yields_production (hvalues ▸ .binary op a b) ⟨⟨ha, hleft⟩, hb, hright⟩ rfl
    ?_⟩
  rw [hwords, Expr.tokens, List.map_append, List.map_cons]

/-- Every production makes an expression of its parts. -/
theorem exists_yields {p : Production} (hp : p ∈ productions) (h : MeansAll p.rhs parts) :
    ∃ e, Yields p parts e := by
  simp only [productions, List.mem_append, List.mem_map, List.mem_cons, List.not_mem_nil,
    or_false] at hp
  rcases hp with (⟨level, -, rfl⟩ | rfl | rfl | rfl | rfl | rfl) | ⟨op, -, rfl⟩
  · exact exists_yields_ascent h
  · exact exists_yields_number h
  · exact exists_yields_group h
  · exact exists_yields_call h
  · exact exists_yields_infixed h
  · exact exists_yields_negation h
  · exact exists_yields_infixed h

end

end Scannerless.Calculator
