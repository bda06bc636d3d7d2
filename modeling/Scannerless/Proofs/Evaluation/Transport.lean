import Scannerless.Proofs.Evaluation.Notes

/-!
# Values along a map

A tree can be evaluated with values of one kind and with values of another kind. If a map takes
the values of tokens to those of tokens, and what rules come to is taken to what they come to,
then it takes the value of the tree to its other value. This is asked of rules only where they get
values with the meanings of their right sides.

## Main definitions

- `Recognition.Along` — values that a map takes from values with the meaning of a symbol.
- `Recognition.Carries` — a map takes the values of tokens and rules to others.

## Main statements

- `Recognition.Explains.along` — symbols have the same meanings along the map.
- `Recognition.Explains.alike` — trees come to the same values along the map.
- `Recognition.Explains.evaluate_along` — so do recognized inputs.
-/

namespace Scannerless

variable {V W : Type}

namespace Recognition

variable {φ : V → W} {means : SymbolId → List V → List String → Prop}

/-! ### Meanings -/

/-- Values that a map takes from values with the meaning of a symbol. -/
def Along (φ : V → W) (means : SymbolId → List V → List String → Prop) (s : SymbolId)
    (values : List W) (words : List String) : Prop :=
  ∃ vs, values = vs.map φ ∧ means s vs words

theorem kept_map {α β : Type} (f : α → β) (marks : List Bool) (xs : List α) :
    kept marks (xs.map f) = (kept marks xs).map f := by
  induction xs generalizing marks with
  | nil => cases marks <;> rfl
  | cons x xs ih =>
    cases marks with
    | nil => rfl
    | cons mark marks =>
      have hrest := ih marks
      rw [kept, kept] at hrest
      cases mark <;> simp [kept, hrest]

/-- What a tree gives, along a map. -/
def Portion.map (φ : V → W) (part : Portion V) : Portion W :=
  ⟨part.values.map φ, part.words⟩

theorem exists_along {ss : List SymbolId} {parts : List (Portion W)}
    (h : List.Forall₂ (fun s part => Along φ means s part.values part.words) ss parts) :
    ∃ origins : List (Portion V), parts = origins.map (Portion.map φ) ∧
      List.Forall₂ (fun s part => means s part.values part.words) ss origins := by
  induction h with
  | nil => exact ⟨[], rfl, .nil⟩
  | @cons s part ss parts hpart _ ih =>
    obtain ⟨values, hvalues, hmeans⟩ := hpart
    obtain ⟨origins, rfl, horigins⟩ := ih
    refine ⟨⟨values, part.words⟩ :: origins, ?_, .cons hmeans horigins⟩
    rw [List.map_cons, Portion.map, ← hvalues]

theorem flatMap_values_map (parts : List (Portion V)) :
    (parts.map (Portion.map φ)).flatMap Portion.values =
      (parts.flatMap Portion.values).map φ := by
  rw [List.flatMap_map, List.map_flatMap]
  rfl

variable [Semantic V] [Semantic W] {r : Recognition} {l : Lattice} {actions : Registry V}
  {others : Registry W}

/-- A map takes the values of tokens to those of tokens, and what rules come to when they get
    values with the meanings of their right sides to what they come to with other actions. -/
structure Carries (r : Recognition) (φ : V → W) (actions : Registry V) (others : Registry W)
    (means : SymbolId → List V → List String → Prop) : Prop where
  token : ∀ text, φ (Semantic.ofLexeme text) = Semantic.ofLexeme text
  rule : ∀ id rule, r.grammar.structural.rule? id = some rule → rule.isSplice = false →
    ∀ parts : List (Portion V),
    List.Forall₂ (fun s part => means s part.values part.words) rule.rhs parts →
    let values := (kept rule.mask parts).flatMap Portion.values
    ∀ start stop value words,
      applyRule actions ⟨r.grammar, r.input, rule, start, stop⟩ values = .ok value →
      means rule.lhs [value] words →
      applyRule others ⟨r.grammar, r.input, rule, start, stop⟩ (values.map φ) = .ok (φ value)

/-- Symbols have the same meanings along a map. -/
theorem Explains.along (h : r.Explains l actions means) (hφ : r.Carries φ actions others means) :
    r.Explains l others (Along φ means) where
  token i s j hs hj := ⟨[_], congrArg ([·]) (hφ.token _).symm, h.token i s j hs hj⟩
  rule id rule hrule parts hparts := by
    obtain ⟨origins, rfl, horigins⟩ := exists_along hparts
    have hmeans := h.rule id rule hrule origins horigins
    have hwords : (origins.map (Portion.map φ)).flatMap Portion.words =
        origins.flatMap Portion.words := by
      rw [List.flatMap_map]
      rfl
    simp only [kept_map, flatMap_values_map, hwords] at hmeans ⊢
    cases hsplice : rule.isSplice with
    | true =>
      rw [hsplice, if_pos rfl] at hmeans
      rw [if_pos rfl]
      exact ⟨_, rfl, hmeans⟩
    | false =>
      rw [hsplice, if_neg Bool.false_ne_true] at hmeans
      rw [if_neg Bool.false_ne_true]
      intro start stop
      obtain ⟨value, hvalue, hlhs⟩ := hmeans start stop
      exact ⟨φ value, hφ.rule id rule hrule hsplice origins horigins start stop value _ hvalue hlhs,
        [value], rfl, hlhs⟩

/-! ### The same values -/

/-- The values of two computations, the one taken to the other by a map. -/
def Alike (φ : V → W) (x : Evaluation V (List V)) (y : Evaluation W (List W)) : Prop :=
  ∃ values, x.Gives values ∧ y.Gives (values.map φ)

theorem Alike.concat {rule : Rule} {ts : List Tree} {tree : Tree}
    (hts : Alike φ (Tree.argumentsFrom r actions rule 0 ts)
      (Tree.argumentsFrom r others rule 0 ts))
    (htree : Alike φ (tree.arguments r actions) (tree.arguments r others)) :
    Alike φ (Tree.argumentsFrom r actions rule 0 (ts ++ [tree]))
      (Tree.argumentsFrom r others rule 0 (ts ++ [tree])) := by
  obtain ⟨front, hfront, hfront'⟩ := hts
  obtain ⟨back, hback, hback'⟩ := htree
  rw [Tree.argumentsFrom_concat, Tree.argumentsFrom_concat]
  cases rule.keeps (0 + ts.length) with
  | true =>
    refine ⟨front ++ back, hfront.bind (hback.bind .pure), ?_⟩
    rw [List.map_append]
    exact hfront'.bind (hback'.bind .pure)
  | false =>
    refine ⟨front ++ [], hfront.bind (Evaluation.Gives.pure.bind .pure), ?_⟩
    rw [List.map_append]
    exact hfront'.bind (Evaluation.Gives.pure.bind .pure)

theorem Carries.alike_token (hφ : r.Carries φ actions others means) {s : SymbolId}
    {i start stop : Nat} :
    Alike φ ((Tree.token s i start stop).arguments r actions)
      ((Tree.token s i start stop).arguments r others) := by
  rw [Tree.arguments, Tree.arguments]
  refine ⟨_, .pure, ?_⟩
  rw [List.map_singleton, hφ.token]
  exact .pure

namespace Explains

/-- A rule comes to the same value along a map if its children do. -/
theorem alike_node (h : r.Explains l actions means) (hφ : r.Carries φ actions others means)
    {id : RuleId} {rule : Rule} {i j : Nat} {us : List Tree}
    (hrule : r.grammar.structural.rule? id = some rule)
    (hus : r.ExplainedAll l actions means rule.rhs us i j)
    (halike : Alike φ (Tree.argumentsFrom r actions rule 0 us)
      (Tree.argumentsFrom r others rule 0 us)) :
    Alike φ ((Tree.node id i j us).arguments r actions)
      ((Tree.node id i j us).arguments r others) := by
  obtain ⟨parts, hparts, -, hvalues⟩ := hus
  obtain ⟨values, hgives, hgives'⟩ := halike
  obtain rfl := (hvalues rule).unique hgives
  have hmeans := h.rule id rule hrule parts hparts
  rw [Tree.arguments, Tree.arguments, hrule]
  simp only at hmeans ⊢
  cases hsplice : rule.isSplice with
  | true => exact ⟨_, hgives.bind .pure, hgives'.bind .pure⟩
  | false =>
    rw [hsplice] at hmeans
    obtain ⟨value, hvalue, hlhs⟩ := hmeans (min (r.skip i) j) j
    have hvalue' := hφ.rule id rule hrule hsplice parts hparts _ _ value _ hvalue hlhs
    exact ⟨[value], hgives.bind ((gives_apply hvalue).bind .pure),
      hgives'.bind ((gives_apply hvalue').bind .pure)⟩

/-- Trees come to the same values along a map. -/
theorem alikeAll (h : r.Explains l actions means) (hφ : r.Carries φ actions others means)
    (hi : r.grammar.structural.Indexed) {ss : List SymbolId} {i j : Nat} {ts : List Tree}
    (hts : r.grammar.structural.Reads l ss i j ts) (rule : Rule) :
    Alike φ (Tree.argumentsFrom r actions rule 0 ts)
      (Tree.argumentsFrom r others rule 0 ts) := by
  induction hts generalizing rule with
  | nil => exact ⟨[], .pure, .pure⟩
  | token _ _ _ ih => exact (ih rule).concat hφ.alike_token
  | @node _ _ _ _ _ _ s id _ hid hus ihss ihus =>
    obtain ⟨rule', hrule, rfl⟩ := Option.map_eq_some_iff.mp ((hi s id).mp hid)
    rw [RuleTable.rhs_of_rule? hrule] at hus
    exact (ihss rule).concat (h.alike_node hφ hrule (h.explainedAll hi hus) (ihus rule'))

/-- A tree comes to the same values along a map. -/
theorem alike (h : r.Explains l actions means) (hφ : r.Carries φ actions others means)
    (hi : r.grammar.structural.Indexed) {s : SymbolId} {i j : Nat} {tree : Tree}
    (htree : r.grammar.structural.Reads l [s] i j [tree]) :
    Alike φ (tree.arguments r actions) (tree.arguments r others) := by
  rcases htree.singleton_cases with ⟨-, -, heq⟩ | ⟨id, us, hid, hus, heq⟩
  · obtain rfl := List.singleton_inj.mp heq
    exact hφ.alike_token
  · obtain rfl := List.singleton_inj.mp heq
    obtain ⟨rule, hrule, rfl⟩ := Option.map_eq_some_iff.mp ((hi s id).mp hid)
    rw [RuleTable.rhs_of_rule? hrule] at hus
    exact h.alike_node hφ hrule (h.explainedAll hi hus) (h.alikeAll hφ hi hus rule)

/-- A recognized input comes to the same value along a map, and so do all values that are noted
    on the way. -/
theorem evaluate_along (h : r.Explains r.lattice actions means)
    (hφ : r.Carries φ actions others means) (hr : r.Ended) (hok : r.failure? = none)
    (hone : ∀ values words, means r.grammar.start values words → ∃ value, values = [value]) :
    ∃ value words, means r.grammar.start [value] words ∧
      (r.evaluate actions).1 = .ok value ∧ (r.evaluate others).1 = .ok (φ value) ∧
      ∀ e ∈ (r.evaluate others).2, ∃ v s ws, e.value = φ v ∧ means s [v] ws := by
  obtain ⟨tree, hchosen⟩ := hr.exists_chosen hok
  obtain ⟨p, hreads, -⟩ := hr.exists_reads_of_chosen hchosen
  obtain ⟨⟨values, words⟩, hmeans, -, hgives⟩ := h.reads hr.coherent.structural hreads
  obtain ⟨value, rfl⟩ := hone values words hmeans
  obtain ⟨values, hgives', halike⟩ := h.alike hφ hr.coherent.structural hreads
  obtain rfl := hgives.unique hgives'
  have hnotes : Evaluation.Notes (IsMeant (Along φ means)) (tree.evaluate r others) := by
    rw [Tree.evaluate]
    exact ((h.along hφ).notes hr.coherent.structural hreads).bind halike .pure
  refine ⟨value, words, hmeans, hr.evaluate_of_gives hchosen hgives,
    hr.evaluate_of_gives hchosen halike, fun e he => ?_⟩
  rw [hr.evaluate_eq others hchosen] at he
  obtain ⟨s, ws, vs, hvs, hv⟩ := hnotes #[] (fun _ h => absurd h (Array.not_mem_empty _)) e he
  obtain ⟨v, rfl, hev⟩ := List.map_eq_singleton_iff.mp hvs.symm
  exact ⟨v, s, ws, hev.symm, hv⟩

end Explains

end Recognition

end Scannerless
