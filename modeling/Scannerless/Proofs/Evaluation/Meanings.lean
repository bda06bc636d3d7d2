import Mathlib.Data.List.Forall2
import Scannerless.Proofs.Evaluation.Arguments

/-!
# Meanings of symbols

What the trees of a grammar come to is told symbol by symbol. A meaning says which values may
come of which words. If every token has the meaning of its symbol, and every rule gives its left
symbol a meaning whenever the symbols on its right side have theirs, then every tree has the
meaning of its symbol.

## Main definitions

- `Evaluation.Gives` — a computation has a value, whatever was noted before.
- `Lattice.Words` — the words that are read from one place to another.
- `Recognition.Explains` — meanings that tokens have and rules hand up.

## Main statements

- `Recognition.Explains.reads` — trees have the meanings of their symbols.
-/

namespace Scannerless

open Text

/-! ### Computations with a value -/

namespace Evaluation

variable {V α β : Type} {x : Evaluation V α} {f : α → Evaluation V β} {a : α} {b : β}

/-- A computation has a value, whatever was noted before. -/
def Gives (x : Evaluation V α) (a : α) : Prop :=
  ∀ events, ∃ events', x.runFrom events = (.ok a, events')

theorem Gives.pure : Gives (Pure.pure a : Evaluation V α) a :=
  fun events => ⟨events, rfl⟩

/-- A computation has no more than one value. -/
theorem Gives.unique {a' : α} (h : x.Gives a) (h' : x.Gives a') : a = a' := by
  obtain ⟨events, hrun⟩ := h #[]
  obtain ⟨events', hrun'⟩ := h' #[]
  exact Except.ok.inj (congrArg Prod.fst (hrun.symm.trans hrun'))

theorem Gives.bind (hx : x.Gives a) (hf : (f a).Gives b) : (x >>= f).Gives b := by
  intro events
  obtain ⟨events', hrun⟩ := hx events
  obtain ⟨events'', hrun'⟩ := hf events'
  refine ⟨events'', ?_⟩
  rw [runFrom_bind, hrun]
  exact hrun'

end Evaluation

theorem Recognition.gives_apply {V : Type} [Semantic V] {r : Recognition} {actions : Registry V}
    {rule : Rule} {origin stop : Nat} {arguments : List V} {value : V}
    (h : applyRule actions ⟨r.grammar, r.input, rule, min (r.skip origin) stop, stop⟩ arguments =
      .ok value) : (r.apply actions rule origin stop arguments).Gives value := by
  intro events
  rw [Recognition.runFrom_apply]
  simp only [h]
  exact ⟨_, rfl⟩

/-! ### Words -/

namespace Lattice

variable {l : Lattice} {input : Indexed} {ws ws' : List String} {i j k : Nat}

/-- The words that are read from one place of an input to another: the texts of tokens. -/
inductive Words (l : Lattice) (input : Indexed) : List String → Nat → Nat → Prop where
  | nil (i : Nat) : Words l input [] i i
  | cons {s : SymbolId} {ws : List String} {i k j : Nat} (hs : l.token i s k)
      (hws : Words l input ws k j) : Words l input (input.between (l.start i) k :: ws) i j

theorem Words.cons_inv {w : String} (h : l.Words input (w :: ws) i j) :
    ∃ s k, l.token i s k ∧ w = input.between (l.start i) k ∧ l.Words input ws k j := by
  cases h with
  | cons hs hws => exact ⟨_, _, hs, rfl, hws⟩

theorem Words.append (h : l.Words input ws i k) (h' : l.Words input ws' k j) :
    l.Words input (ws ++ ws') i j := by
  induction h with
  | nil => exact h'
  | cons hs _ ih => exact .cons hs (ih h')

end Lattice

/-! ### Meanings -/

theorem kept_concat {α : Type} (marks : List Bool) (xs : List α) (x : α) :
    kept marks (xs ++ [x]) = kept marks xs ++ if marks.getD xs.length false then [x] else [] := by
  induction xs generalizing marks with
  | nil =>
    cases marks with
    | nil => rfl
    | cons mark marks => cases mark <;> rfl
  | cons y xs ih =>
    cases marks with
    | nil => rfl
    | cons mark marks =>
      have hrest := ih marks
      rw [kept, kept] at hrest
      cases mark <;> simp [kept, hrest]

theorem kept_of_all {α β : Type} {xs : List α} {ys : List β} (h : ys.length = xs.length) :
    kept (ys.map fun _ => true) xs = xs := by
  induction xs generalizing ys with
  | nil => cases ys <;> rfl
  | cons x xs ih =>
    cases ys with
    | nil => cases h
    | cons y ys =>
      have hrest := ih (Nat.succ.inj h)
      rw [kept] at hrest ⊢
      rw [List.map_cons, List.zip_cons_cons, List.filter_cons_of_pos rfl, List.map_cons, hrest]

/-- What a tree gives to a rule that keeps it, and the words that it was read from. -/
structure Portion (V : Type) where
  values : List V
  words : List String

namespace Recognition

variable {V : Type} [Semantic V] {r : Recognition} {l : Lattice} {actions : Registry V}
  {means : SymbolId → List V → List String → Prop}

/-- Meanings that tokens have, and that every rule hands up from its right side: a spliced
    rule with all values that it keeps, and another one with that of its action. -/
structure Explains (r : Recognition) (l : Lattice) (actions : Registry V)
    (means : SymbolId → List V → List String → Prop) : Prop where
  token : ∀ i s j, r.grammar.structural.hasRules s = false → l.token i s j →
    means s [Semantic.ofLexeme (r.input.between (l.start i) j)] [r.input.between (l.start i) j]
  rule : ∀ id rule, r.grammar.structural.rule? id = some rule → ∀ parts : List (Portion V),
    List.Forall₂ (fun s part => means s part.values part.words) rule.rhs parts →
      let values := (kept rule.mask parts).flatMap Portion.values
      let words := parts.flatMap Portion.words
      if rule.isSplice then means rule.lhs values words
      else ∀ start stop, ∃ value,
        applyRule actions ⟨r.grammar, r.input, rule, start, stop⟩ values = .ok value ∧
          means rule.lhs [value] words

/-- A tree gives some values and was read from some words between two places, as the meaning
    of its symbol has it. -/
def Explained (r : Recognition) (l : Lattice) (actions : Registry V)
    (means : SymbolId → List V → List String → Prop) (s : SymbolId) (tree : Tree) (i j : Nat) :
    Prop :=
  ∃ part : Portion V, means s part.values part.words ∧
    l.Words r.input part.words i j ∧ (tree.arguments r actions).Gives part.values

/-- So do the trees of a list of symbols, and a rule gets the values of those that it keeps. -/
def ExplainedAll (r : Recognition) (l : Lattice) (actions : Registry V)
    (means : SymbolId → List V → List String → Prop) (ss : List SymbolId) (ts : List Tree)
    (i j : Nat) : Prop :=
  ∃ parts : List (Portion V),
    List.Forall₂ (fun s part => means s part.values part.words) ss parts ∧
    l.Words r.input (parts.flatMap Portion.words) i j ∧
    ∀ rule, (Tree.argumentsFrom r actions rule 0 ts).Gives
      ((kept rule.mask parts).flatMap Portion.values)

/-- Readings grow at their end: what the last tree is explained by comes last. -/
theorem ExplainedAll.concat {ss : List SymbolId} {s : SymbolId} {ts : List Tree} {tree : Tree}
    {i k j : Nat} (hss : r.ExplainedAll l actions means ss ts i k)
    (hlength : ts.length = ss.length) (htree : r.Explained l actions means s tree k j) :
    r.ExplainedAll l actions means (ss ++ [s]) (ts ++ [tree]) i j := by
  obtain ⟨parts, hmeans, hwords, hvalues⟩ := hss
  obtain ⟨part, hpart, hpartwords, hpartvalues⟩ := htree
  refine ⟨parts ++ [part], List.rel_append hmeans (.cons hpart .nil), ?_, fun rule => ?_⟩
  · rw [List.flatMap_append, List.flatMap_singleton]
    exact hwords.append hpartwords
  · rw [Tree.argumentsFrom_concat, kept_concat, List.flatMap_append]
    refine (hvalues rule).bind ?_
    rw [Nat.zero_add, hlength, hmeans.length_eq, Rule.keeps]
    cases rule.mask.getD parts.length false with
    | true =>
      refine hpartvalues.bind ?_
      simpa using Evaluation.Gives.pure
    | false =>
      refine Evaluation.Gives.pure.bind ?_
      simpa using Evaluation.Gives.pure

namespace Explains

theorem explained_token (h : r.Explains l actions means) {s : SymbolId} {i j : Nat}
    (hs : r.grammar.structural.hasRules s = false) (hj : l.token i s j) :
    r.Explained l actions means s (.token s i (l.start i) j) i j := by
  refine ⟨⟨_, _⟩, h.token i s j hs hj, .cons hj (.nil j), ?_⟩
  rw [Tree.arguments]
  exact .pure

/-- A tree is explained if the trees below it are. -/
theorem explained_node (h : r.Explains l actions means) {id : RuleId} {rule : Rule} {i j : Nat}
    {us : List Tree} (hrule : r.grammar.structural.rule? id = some rule)
    (hus : r.ExplainedAll l actions means rule.rhs us i j) :
    r.Explained l actions means rule.lhs (.node id i j us) i j := by
  obtain ⟨parts, hparts, hwords, hvalues⟩ := hus
  have hmeans := h.rule id rule hrule parts hparts
  simp only at hmeans
  rw [Explained, Tree.arguments, hrule]
  cases hsplice : rule.isSplice with
  | true =>
    rw [hsplice, if_pos rfl] at hmeans
    refine ⟨⟨_, _⟩, hmeans, hwords, (hvalues rule).bind ?_⟩
    rw [hsplice, if_pos rfl]
    exact .pure
  | false =>
    rw [hsplice] at hmeans
    obtain ⟨value, hvalue, hmeans⟩ := hmeans (min (r.skip i) j) j
    refine ⟨⟨[value], _⟩, hmeans, hwords, (hvalues rule).bind ?_⟩
    rw [hsplice]
    exact (gives_apply hvalue).bind .pure

/-- Trees have the meanings of their symbols. -/
theorem explainedAll (h : r.Explains l actions means) (hi : r.grammar.structural.Indexed)
    {ss : List SymbolId} {i j : Nat} {ts : List Tree}
    (hts : r.grammar.structural.Reads l ss i j ts) : r.ExplainedAll l actions means ss ts i j := by
  induction hts with
  | nil i => exact ⟨[], .nil, .nil i, fun _ => .pure⟩
  | token hss hs hj ih => exact ih.concat hss.length_eq (h.explained_token hs hj)
  | @node _ _ _ _ _ _ s id hss hid hus ihss ihus =>
    obtain ⟨rule, hrule, rfl⟩ := Option.map_eq_some_iff.mp ((hi s id).mp hid)
    rw [RuleTable.rhs_of_rule? hrule] at ihus
    exact ihss.concat hss.length_eq (h.explained_node hrule ihus)

/-- A tree has the meaning of its symbol. -/
theorem reads (h : r.Explains l actions means) (hi : r.grammar.structural.Indexed)
    {s : SymbolId} {i j : Nat} {tree : Tree}
    (htree : r.grammar.structural.Reads l [s] i j [tree]) :
    r.Explained l actions means s tree i j := by
  rcases htree.singleton_cases with ⟨hs, hj, heq⟩ | ⟨id, us, hid, hus, heq⟩
  · obtain rfl := List.singleton_inj.mp heq
    exact h.explained_token hs hj
  · obtain rfl := List.singleton_inj.mp heq
    obtain ⟨rule, hrule, rfl⟩ := Option.map_eq_some_iff.mp ((hi s id).mp hid)
    rw [RuleTable.rhs_of_rule? hrule] at hus
    exact h.explained_node hrule (h.explainedAll hi hus)

end Explains

end Recognition

end Scannerless
