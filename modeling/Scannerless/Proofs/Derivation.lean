import Mathlib.Data.List.Forall2
import Mathlib.Data.List.Induction
import Mathlib.Data.Nat.Basic
import Mathlib.Logic.Relation
import Mathlib.Order.Basic
import Scannerless.Chart.Item

/-!
# Derivations

What the rules of a table derive, in two forms. A derivation rewrites a list of
symbols until only tokens are left. A reading has the tokens lie between the
places of an input, one behind the other, and keeps the tree of the rules that
were applied.

## Main definitions

- `RuleTable.Indexed` — the rules of each symbol are those with it on their left.
- `RuleTable.Derives` — a list of symbols is rewritten into another one.
- `RuleTable.DerivesFor` — symbols are derived that stand for the items of a list.
- `Lattice` — the tokens between the places of an input; `Lattice.Chain` is a path
  through it.
- `Tree`, `RuleTable.Reads` — trees, and those of a list of symbols between two
  places.
- `RuleTable.Spans` — a list of symbols has some tree between two places.

## Main statements

- `RuleTable.spans_append_iff` — a list of symbols spans two places exactly if its
  parts span them by way of a third.
- `RuleTable.spans_iff_derives` — a list of symbols spans two places exactly if it
  derives the tokens of a path between them.
-/

namespace Scannerless

/-! ### Rewriting -/

namespace RuleTable

variable {t : RuleTable}

/-- The rules of each symbol are those with it on their left. -/
def Indexed (t : RuleTable) : Prop :=
  ∀ s id, id ∈ t.rulesFor s ↔ t.lhs? id = some s

/-- A symbol is replaced by the right side of one of its rules. -/
inductive Rewrites (t : RuleTable) : List SymbolId → List SymbolId → Prop where
  | expand {id : RuleId} {s : SymbolId} (front back : List SymbolId) (h : t.lhs? id = some s) :
      Rewrites t (front ++ s :: back) (front ++ t.rhs id ++ back)

/-- A list of symbols is rewritten into another one in any number of steps. -/
def Derives (t : RuleTable) : List SymbolId → List SymbolId → Prop :=
  Relation.ReflTransGen t.Rewrites

theorem Rewrites.append_left {u v : List SymbolId} (h : t.Rewrites u v)
    (front : List SymbolId) : t.Rewrites (front ++ u) (front ++ v) := by
  obtain ⟨a, b, hs⟩ := h
  simpa [List.append_assoc] using Rewrites.expand (front ++ a) b hs

theorem Rewrites.append_right {u v : List SymbolId} (h : t.Rewrites u v)
    (back : List SymbolId) : t.Rewrites (u ++ back) (v ++ back) := by
  obtain ⟨a, b, hs⟩ := h
  simpa [List.append_assoc] using Rewrites.expand a (b ++ back) hs

theorem Derives.append {u u' v v' : List SymbolId} (hu : t.Derives u u')
    (hv : t.Derives v v') : t.Derives (u ++ v) (u' ++ v') := by
  have hleft : t.Derives (u ++ v) (u' ++ v) :=
    Relation.ReflTransGen.lift (· ++ v) (fun _ _ h => h.append_right v) _ _ hu
  have hright : t.Derives (u' ++ v) (u' ++ v') :=
    Relation.ReflTransGen.lift (u' ++ ·) (fun _ _ h => h.append_left u') _ _ hv
  exact hleft.trans hright

/-- A symbol derives what the right side of one of its rules derives. -/
theorem Derives.of_rhs {id : RuleId} {s : SymbolId} {v : List SymbolId}
    (hs : t.lhs? id = some s) (hv : t.Derives (t.rhs id) v) : t.Derives [s] v := by
  have hstep : t.Rewrites [s] (t.rhs id) := by
    simpa using Rewrites.expand [] [] hs
  exact Relation.ReflTransGen.head hstep hv

/-- A single symbol is rewritten by one of its own rules. -/
theorem Rewrites.of_singleton {s : SymbolId} {v : List SymbolId} (h : t.Rewrites [s] v) :
    ∃ id, t.lhs? id = some s ∧ v = t.rhs id := by
  generalize hu : [s] = u at h
  obtain @⟨id, s', front, back, hs⟩ := h
  cases front with
  | nil =>
    obtain ⟨rfl, rfl⟩ := List.cons.inj hu
    exact ⟨id, hs, by simp⟩
  | cons x front =>
    obtain ⟨-, hnil⟩ := List.cons.inj hu
    simp at hnil

theorem rhs_of_rule? {id : RuleId} {rule : Rule} (h : t.rule? id = some rule) :
    t.rhs id = rule.rhs := by
  rw [rule?] at h
  rw [rhs, h]

theorem lhs?_of_rule? {id : RuleId} {rule : Rule} (h : t.rule? id = some rule) :
    t.lhs? id = some rule.lhs := by
  rw [lhs?, ← rule?, h, Option.map_some]

/-! Symbols derived one for each part of something. -/

section

variable {α : Type} {R : SymbolId → α → Prop}

/-- A list of symbols derives symbols that stand for the items of a list. -/
def DerivesFor (t : RuleTable) (R : SymbolId → α → Prop) (ss : List SymbolId) (xs : List α) :
    Prop :=
  ∃ as, t.Derives ss as ∧ List.Forall₂ R as xs

theorem derivesFor_self {s : SymbolId} {x : α} (h : R s x) : t.DerivesFor R [s] [x] :=
  ⟨[s], .refl, .cons h .nil⟩

/-- A list of symbols derives what these derive one behind the other. -/
theorem derivesFor_flatten {ss : List SymbolId} {xss : List (List α)}
    (h : List.Forall₂ (fun s xs => t.DerivesFor R [s] xs) ss xss) :
    t.DerivesFor R ss xss.flatten := by
  induction h with
  | nil => exact ⟨[], .refl, .nil⟩
  | cons hs _ ih =>
    obtain ⟨as, hderives, has⟩ := hs
    obtain ⟨bs, hderives', hbs⟩ := ih
    exact ⟨as ++ bs, hderives.append hderives', List.rel_append has hbs⟩

/-- The left side of a rule derives what its right side derives. -/
theorem DerivesFor.of_rule {id : RuleId} {rule : Rule} {xs : List α}
    (hrule : t.rule? id = some rule) (h : t.DerivesFor R rule.rhs xs) :
    t.DerivesFor R [rule.lhs] xs := by
  obtain ⟨as, hderives, has⟩ := h
  refine ⟨as, .of_rhs (lhs?_of_rule? hrule) ?_, has⟩
  rwa [rhs_of_rule? hrule]

end

theorem mem_rules_of_rule? {id : RuleId} {rule : Rule} (h : t.rule? id = some rule) :
    rule ∈ t.rules.toList :=
  Array.mem_toList_iff.mpr (Array.mem_of_getElem? h)

theorem hasRules_of_mem {s : SymbolId} {id : RuleId} (h : id ∈ t.rulesFor s) :
    t.hasRules s = true := by
  rw [hasRules, Bool.not_eq_true', List.isEmpty_eq_false_iff]
  exact List.ne_nil_of_mem h

theorem Indexed.hasRules_of_lhs {s : SymbolId} {id : RuleId} (hi : t.Indexed)
    (h : t.lhs? id = some s) : t.hasRules s = true :=
  hasRules_of_mem ((hi s id).mpr h)

theorem exists_mem_rulesFor {s : SymbolId} (h : t.hasRules s = true) :
    ∃ id, id ∈ t.rulesFor s := by
  rw [hasRules, Bool.not_eq_true', List.isEmpty_eq_false_iff] at h
  exact List.exists_mem_of_ne_nil _ h

end RuleTable

/-! ### Readings between places -/

/-- The tokens between the places of an input: `token k s j` says that the token
    `s` may be read from place `k` to place `j`, and `start k` is where the
    text of tokens that are read from `k` begins. -/
structure Lattice where
  start : Nat → Nat
  token : Nat → SymbolId → Nat → Prop

/-- Tokens that are read one behind the other from one place to another. -/
inductive Lattice.Chain (l : Lattice) : List SymbolId → Nat → Nat → Prop where
  | nil (i : Nat) : Chain l [] i i
  | cons {s : SymbolId} {ss : List SymbolId} {i k j : Nat} (hs : l.token i s k)
      (hss : Chain l ss k j) : Chain l (s :: ss) i j

/-- Every token leads to a later place. -/
def Lattice.Forward (l : Lattice) : Prop :=
  ∀ {k s j}, l.token k s j → k < j

/-- A tree of rules over tokens. A token has the place it was read from, where
    its text begins and where it ends; a rule has its span. -/
inductive Tree where
  | token (symbol : SymbolId) (place start stop : Nat)
  | node (rule : RuleId) (origin stop : Nat) (children : List Tree)

namespace RuleTable

variable {t : RuleTable} {l : Lattice}

/-- The trees of a list of symbols between two places, one for each symbol. The
    list grows at its end, as an item does. -/
inductive Reads (t : RuleTable) (l : Lattice) :
    List SymbolId → Nat → Nat → List Tree → Prop where
  | nil (i : Nat) : Reads t l [] i i []
  | token {ss : List SymbolId} {i k j : Nat} {ts : List Tree} {s : SymbolId}
      (hss : Reads t l ss i k ts) (hs : t.hasRules s = false) (hj : l.token k s j) :
      Reads t l (ss ++ [s]) i j (ts ++ [.token s k (l.start k) j])
  | node {ss : List SymbolId} {i k j : Nat} {ts us : List Tree} {s : SymbolId} {id : RuleId}
      (hss : Reads t l ss i k ts) (hid : id ∈ t.rulesFor s)
      (hus : Reads t l (t.rhs id) k j us) :
      Reads t l (ss ++ [s]) i j (ts ++ [.node id k j us])

/-- A list of symbols has a tree between two places. -/
def Spans (t : RuleTable) (l : Lattice) (ss : List SymbolId) (i j : Nat) : Prop :=
  ∃ ts, t.Reads l ss i j ts

/-- The last of a list of symbols is read as a token or by a rule. -/
theorem Reads.concat_cases {ss : List SymbolId} {s : SymbolId} {i j : Nat} {us : List Tree}
    (h : t.Reads l (ss ++ [s]) i j us) :
    ∃ k ts, t.Reads l ss i k ts ∧
      ((t.hasRules s = false ∧ l.token k s j ∧ us = ts ++ [.token s k (l.start k) j]) ∨
        ∃ id vs, id ∈ t.rulesFor s ∧ t.Reads l (t.rhs id) k j vs ∧
          us = ts ++ [.node id k j vs]) := by
  generalize hall : ss ++ [s] = all at h
  cases h with
  | nil => simp at hall
  | token hss hs hj =>
    obtain ⟨rfl, hlast⟩ := List.append_inj' hall rfl
    obtain rfl := List.singleton_inj.mp hlast
    exact ⟨_, _, hss, Or.inl ⟨hs, hj, rfl⟩⟩
  | node hss hid hus =>
    obtain ⟨rfl, hlast⟩ := List.append_inj' hall rfl
    obtain rfl := List.singleton_inj.mp hlast
    exact ⟨_, _, hss, Or.inr ⟨_, _, hid, hus, rfl⟩⟩

theorem Reads.nil_inv {i j : Nat} {ts : List Tree} (h : t.Reads l [] i j ts) :
    i = j ∧ ts = [] := by
  generalize hall : ([] : List SymbolId) = all at h
  cases h with
  | nil => exact ⟨rfl, rfl⟩
  | token => simp at hall
  | node => simp at hall

theorem Reads.length_eq {ss : List SymbolId} {i j : Nat} {ts : List Tree}
    (h : t.Reads l ss i j ts) : ts.length = ss.length := by
  induction h with
  | nil => rfl
  | token _ _ _ ih => simp [ih]
  | node _ _ _ ih => simp [ih]

/-- Trees of two lists of symbols that follow one another are those of both. -/
theorem Reads.append {ss rest : List SymbolId} {i k j : Nat} {ts us : List Tree}
    (hss : t.Reads l ss i k ts) (hrest : t.Reads l rest k j us) :
    t.Reads l (ss ++ rest) i j (ts ++ us) := by
  induction hrest with
  | nil => simpa using hss
  | token _ hs hj ih =>
    rw [← List.append_assoc, ← List.append_assoc]
    exact .token (ih hss) hs hj
  | node _ hid hus ih _ =>
    rw [← List.append_assoc, ← List.append_assoc]
    exact .node (ih hss) hid hus

theorem Reads.of_append {ss rest : List SymbolId} {i j : Nat} {vs : List Tree}
    (h : t.Reads l (ss ++ rest) i j vs) :
    ∃ k ts us, vs = ts ++ us ∧ t.Reads l ss i k ts ∧ t.Reads l rest k j us := by
  induction rest using List.reverseRecOn generalizing j vs with
  | nil =>
    rw [List.append_nil] at h
    exact ⟨j, vs, [], (List.append_nil vs).symm, h, .nil j⟩
  | append_singleton rest s ih =>
    rw [← List.append_assoc] at h
    obtain ⟨m, xs, hxs, hlast⟩ := h.concat_cases
    obtain ⟨k, ts, us, rfl, hts, hus⟩ := ih hxs
    rcases hlast with ⟨hs, hj, rfl⟩ | ⟨id, ys, hid, hys, rfl⟩
    · exact ⟨k, ts, _, List.append_assoc _ _ _, hts, .token hus hs hj⟩
    · exact ⟨k, ts, _, List.append_assoc _ _ _, hts, .node hus hid hys⟩

/-- A tree with a rule of a symbol on top. -/
theorem Reads.of_rule {s : SymbolId} {i j : Nat} {us : List Tree} {id : RuleId}
    (hid : id ∈ t.rulesFor s) (hus : t.Reads l (t.rhs id) i j us) :
    t.Reads l [s] i j [.node id i j us] := by
  have h := Reads.node (Reads.nil i) hid hus
  exact h

/-- The tree of a symbol is a token or has one of its rules on top. -/
theorem Reads.singleton_cases {s : SymbolId} {i j : Nat} {us : List Tree}
    (h : t.Reads l [s] i j us) :
    (t.hasRules s = false ∧ l.token i s j ∧ us = [.token s i (l.start i) j]) ∨
      ∃ id vs, id ∈ t.rulesFor s ∧ t.Reads l (t.rhs id) i j vs ∧ us = [.node id i j vs] := by
  have h : t.Reads l ([] ++ [s]) i j us := h
  obtain ⟨k, ts, hnil, hlast⟩ := h.concat_cases
  obtain ⟨rfl, rfl⟩ := hnil.nil_inv
  exact hlast

@[simp]
theorem spans_nil_iff {i j : Nat} : t.Spans l [] i j ↔ i = j := by
  constructor
  · rintro ⟨ts, h⟩
    exact h.nil_inv.1
  · rintro rfl
    exact ⟨[], .nil i⟩

/-- The last symbol of a list is a token or has a rule that spans the rest. -/
theorem spans_concat_iff {ss : List SymbolId} {s : SymbolId} {i j : Nat} :
    t.Spans l (ss ++ [s]) i j ↔
      ∃ k, t.Spans l ss i k ∧
        ((t.hasRules s = false ∧ l.token k s j) ∨
          ∃ id ∈ t.rulesFor s, t.Spans l (t.rhs id) k j) := by
  constructor
  · rintro ⟨us, h⟩
    obtain ⟨k, ts, hss, hlast⟩ := h.concat_cases
    refine ⟨k, ⟨ts, hss⟩, ?_⟩
    rcases hlast with ⟨hs, hj, -⟩ | ⟨id, vs, hid, hvs, -⟩
    · exact Or.inl ⟨hs, hj⟩
    · exact Or.inr ⟨id, hid, vs, hvs⟩
  · rintro ⟨k, ⟨ts, hss⟩, ⟨hs, hj⟩ | ⟨id, hid, us, hus⟩⟩
    · exact ⟨_, .token hss hs hj⟩
    · exact ⟨_, .node hss hid hus⟩

/-- A list of symbols spans two places exactly if its parts do by way of a
    third. -/
theorem spans_append_iff {ss rest : List SymbolId} {i j : Nat} :
    t.Spans l (ss ++ rest) i j ↔ ∃ k, t.Spans l ss i k ∧ t.Spans l rest k j := by
  -- Items grow at their end, so the induction takes symbols off the end of the back part.
  induction rest using List.reverseRecOn generalizing j with
  | nil => simp
  | append_singleton rest s ih =>
    rw [← List.append_assoc, spans_concat_iff]
    constructor
    · rintro ⟨m, hfront, hlast⟩
      obtain ⟨k, hss, hrest⟩ := ih.mp hfront
      exact ⟨k, hss, spans_concat_iff.mpr ⟨m, hrest, hlast⟩⟩
    · rintro ⟨k, hss, hrest⟩
      obtain ⟨m, hrest, hlast⟩ := spans_concat_iff.mp hrest
      exact ⟨m, ih.mpr ⟨k, hss, hrest⟩, hlast⟩

theorem spans_singleton_iff {s : SymbolId} {i j : Nat} :
    t.Spans l [s] i j ↔
      (t.hasRules s = false ∧ l.token i s j) ∨
        ∃ id ∈ t.rulesFor s, t.Spans l (t.rhs id) i j := by
  rw [← List.nil_append [s], spans_concat_iff]
  simp

/-- A symbol in front spans a part of what a list of symbols spans. -/
theorem spans_cons_iff {s : SymbolId} {ss : List SymbolId} {i j : Nat} :
    t.Spans l (s :: ss) i j ↔ ∃ k, t.Spans l [s] i k ∧ t.Spans l ss k j := by
  rw [← List.singleton_append, spans_append_iff]

theorem Spans.le {ss : List SymbolId} {i j : Nat} (hl : l.Forward)
    (h : t.Spans l ss i j) : i ≤ j := by
  obtain ⟨ts, h⟩ := h
  induction h with
  | nil => exact le_rfl
  | token _ _ hj ih => exact ih.trans (hl hj).le
  | node _ _ _ ihss ihus => exact ihss.trans ihus

end RuleTable

/-! ### Both forms agree -/

theorem Lattice.Chain.append {l : Lattice} {as bs : List SymbolId} {i k j : Nat}
    (ha : l.Chain as i k) (hb : l.Chain bs k j) : l.Chain (as ++ bs) i j := by
  induction ha with
  | nil => exact hb
  | cons hs _ ih => exact .cons hs (ih hb)

theorem Lattice.Chain.le {l : Lattice} {as : List SymbolId} {i j : Nat} (hl : l.Forward)
    (h : l.Chain as i j) : i ≤ j := by
  induction h with
  | nil => exact le_rfl
  | cons hs _ ih => exact (hl hs).le.trans ih

/-- Tokens do not lead back to where they begin. -/
theorem Lattice.Chain.eq_nil {l : Lattice} {as : List SymbolId} {i : Nat} (hl : l.Forward)
    (h : l.Chain as i i) : as = [] := by
  cases h with
  | nil => rfl
  | cons hs hrest => exact absurd (hl hs) (Nat.not_lt_of_le (hrest.le hl))

namespace RuleTable

variable {t : RuleTable} {l : Lattice}

theorem spans_of_chain {as : List SymbolId} {i j : Nat} (h : l.Chain as i j)
    (ht : ∀ a ∈ as, t.hasRules a = false) : t.Spans l as i j := by
  induction h with
  | nil i => exact spans_nil_iff.mpr rfl
  | @cons s ss i k j hs _ ih =>
    rw [List.forall_mem_cons] at ht
    exact spans_cons_iff.mpr ⟨k, spans_singleton_iff.mpr (Or.inl ⟨ht.1, hs⟩), ih ht.2⟩

/-- What a list of symbols spans after a rewriting step it spans before. -/
theorem Spans.of_rewrites {u v : List SymbolId} {i j : Nat} (hi : t.Indexed)
    (h : t.Rewrites u v) (hv : t.Spans l v i j) : t.Spans l u i j := by
  obtain @⟨id, s, front, back, hs⟩ := h
  obtain ⟨m, hfront, hback⟩ := spans_append_iff.mp hv
  obtain ⟨k, hfront, hid⟩ := spans_append_iff.mp hfront
  have hsym : t.Spans l [s] k m :=
    spans_singleton_iff.mpr (Or.inr ⟨id, (hi s id).mpr hs, hid⟩)
  exact spans_append_iff.mpr ⟨k, hfront, spans_cons_iff.mpr ⟨m, hsym, hback⟩⟩

theorem Spans.exists_chain {ss : List SymbolId} {i j : Nat} (hi : t.Indexed)
    (h : t.Spans l ss i j) :
    ∃ as, t.Derives ss as ∧ (∀ a ∈ as, t.hasRules a = false) ∧ l.Chain as i j := by
  obtain ⟨ts, h⟩ := h
  induction h with
  | nil i => exact ⟨[], .refl, by simp, .nil i⟩
  | @token ss i k j ts s _ hs hj ih =>
    obtain ⟨as, hd, ht, hc⟩ := ih
    refine ⟨as ++ [s], hd.append .refl, ?_, hc.append (.cons hj (.nil j))⟩
    simpa [or_imp, forall_and] using ⟨ht, hs⟩
  | @node ss i k j ts us s id _ hid _ ihss ihus =>
    obtain ⟨as, hd, ht, hc⟩ := ihss
    obtain ⟨bs, hd', ht', hc'⟩ := ihus
    refine ⟨as ++ bs, hd.append (.of_rhs ((hi s id).mp hid) hd'), ?_, hc.append hc'⟩
    intro a ha
    rcases List.mem_append.mp ha with h | h
    · exact ht a h
    · exact ht' a h

/-- A list of symbols spans two places exactly if it derives the tokens of a
    path between them. -/
theorem spans_iff_derives {ss : List SymbolId} {i j : Nat} (hi : t.Indexed) :
    t.Spans l ss i j ↔
      ∃ as, t.Derives ss as ∧ (∀ a ∈ as, t.hasRules a = false) ∧ l.Chain as i j := by
  refine ⟨fun h => h.exists_chain hi, ?_⟩
  rintro ⟨as, hd, ht, hc⟩
  -- From the tokens back to the symbols: each step puts a rule on top of a span.
  induction hd using Relation.ReflTransGen.head_induction_on with
  | refl => exact spans_of_chain hc ht
  | head hstep _ ih => exact .of_rewrites hi hstep ih

theorem Spans.both_of_append {ss rest : List SymbolId} {i : Nat} (hl : l.Forward)
    (h : t.Spans l (ss ++ rest) i i) : t.Spans l ss i i ∧ t.Spans l rest i i := by
  obtain ⟨k, hss, hrest⟩ := spans_append_iff.mp h
  obtain rfl : k = i := Nat.le_antisymm (hrest.le hl) (hss.le hl)
  exact ⟨hss, hrest⟩

/-- What spans no text derives the empty list, each symbol of it. -/
theorem Spans.derives_nil {ss : List SymbolId} {i : Nat} (hi : t.Indexed) (hl : l.Forward)
    (h : t.Spans l ss i i) : ∀ s ∈ ss, t.Derives [s] [] := by
  intro s hs
  obtain ⟨front, back, rfl⟩ := List.append_of_mem hs
  -- A symbol of the list spans the same place, as no symbol leads back.
  have hself : t.Spans l [s] i i :=
    (Spans.both_of_append hl (Spans.both_of_append hl h).2).1
  obtain ⟨as, hderives, -, hchain⟩ := hself.exists_chain hi
  obtain rfl := hchain.eq_nil hl
  exact hderives

end RuleTable

end Scannerless
