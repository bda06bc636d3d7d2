import Scannerless.Proofs.Evaluation.Recursion

/-!
# Arguments that are values

A tree of a symbol that passes a single value on gives that value to a rule. What such trees
give to a rule are the values of those that the rule keeps, from left to right.

## Main definitions

- `kept` — the elements of a list that are marked.
- `Tree.Single` — a tree gives a single value.

## Main statements

- `RuleTable.Reads.single` — the trees of symbols that pass single values on.
- `Tree.argumentsFrom_eq_mapM` — the arguments of a rule are the values of the trees it keeps.
-/

namespace Scannerless

/-- The elements of a list that are marked. -/
def kept {α : Type} (marks : List Bool) (xs : List α) : List α :=
  ((xs.zip marks).filter (·.2)).map (·.1)

theorem kept_append {α : Type} {marks marks' : List Bool} {xs xs' : List α}
    (h : marks.length = xs.length) :
    kept (marks ++ marks') (xs ++ xs') = kept marks xs ++ kept marks' xs' := by
  rw [kept, List.zip_append h.symm, List.filter_append, List.map_append, kept, kept]

variable {V : Type}

/-- The only value of a list. -/
def Evaluation.only : List V → Evaluation V V
  | [value] => return value
  | _ => throw .incompleteParse

/-- A computation of lists of one value is one of the value. -/
theorem Evaluation.Yields.eq_only {actions : Registry V} {x : Evaluation V (List V)}
    {names : List String} (hx : Yields actions x names fun vs => vs.length = 1) :
    x = do return [← x >>= Evaluation.only] := by
  refine funext fun events => ?_
  change x.runFrom events = (do return [← x >>= Evaluation.only] : Evaluation V _).runFrom events
  rw [Evaluation.runFrom_bind, Evaluation.runFrom_bind]
  have hresult := hx events
  cases hrun : x.runFrom events with
  | mk result events' =>
    rw [hrun] at hresult
    cases result with
    | error e => rfl
    | ok vs =>
      obtain ⟨v, rfl⟩ := List.length_eq_one_iff.mp hresult.2
      rfl

section

variable [Semantic V]

/-- A tree gives its value to a rule that keeps it, and nothing else. -/
def Tree.Single (r : Recognition) (actions : Registry V) (tree : Tree) : Prop :=
  tree.arguments r actions = do return [← tree.evaluate r actions]

namespace RuleTable

variable {r : Recognition} {actions : Registry V} {l : Lattice} {tiers : SymbolId → Prop}

/-- The trees of symbols whose spliced rules pass single values on give single values. -/
theorem Reads.single (hi : r.grammar.structural.Indexed)
    (htiers : r.grammar.structural.PassesOn tiers) {ss : List SymbolId} {i j : Nat}
    {ts : List Tree} (h : r.grammar.structural.Reads l ss i j ts) (hss : ∀ s ∈ ss, tiers s) :
    ∀ t ∈ ts, t.Single r actions := by
  induction h with
  | nil => simp
  | @token ss i k j ts s _ _ _ ih =>
    simp only [List.forall_mem_append, List.forall_mem_singleton] at hss ⊢
    refine ⟨ih hss.1, ?_⟩
    simp [Tree.Single, Tree.evaluate, Tree.arguments]
  | @node ss i k j ts us s id _ hid hus ihss =>
    simp only [List.forall_mem_append, List.forall_mem_singleton] at hss ⊢
    refine ⟨ihss hss.1, ?_⟩
    obtain ⟨rule, hrule, rfl⟩ := Option.map_eq_some_iff.mp ((hi s id).mp hid)
    rw [rhs_of_rule? hrule] at hus
    have hyields : Evaluation.Yields actions ((Tree.node id k j us).arguments r actions)
        ((Tree.node id k j us).actionNames r.grammar) fun vs => tiers rule.lhs → vs.length = 1 :=
      Tree.yields_node hrule htiers (Tree.yields_argumentsFrom hi htiers hus rule)
    exact (hyields.mono fun vs hvs => hvs hss.2).eq_only

end RuleTable

namespace Tree

variable {r : Recognition} {actions : Registry V}

/-- The arguments of a rule are the values of the trees that it keeps. -/
theorem argumentsFrom_eq_mapM (rule : Rule) {place : Nat} {ts : List Tree}
    (h : ∀ t ∈ ts, t.Single r actions) :
    argumentsFrom r actions rule place ts =
      (kept (rule.mask.drop place) ts).mapM (evaluate r actions) := by
  induction ts generalizing place with
  | nil => rfl
  | cons t ts ih =>
    rw [List.forall_mem_cons] at h
    rw [argumentsFrom, ih h.2]
    by_cases hlt : place < rule.mask.length
    · have hkeeps : rule.keeps place = rule.mask[place] := by
        simp [Rule.keeps, hlt]
      rw [List.drop_eq_getElem_cons hlt, hkeeps]
      cases rule.mask[place] with
      | true =>
        have htree : t.arguments r actions = _ := h.1
        simp [kept, htree]
      | false => simp [kept]
    · have hkeeps : rule.keeps place = false := by
        simp [Rule.keeps, hlt]
      rw [hkeeps, List.drop_eq_nil_of_le (Nat.le_of_not_lt hlt),
        List.drop_eq_nil_of_le (Nat.le_succ_of_le (Nat.le_of_not_lt hlt))]
      simp [kept]

/-- The value of a rule that is not spliced is what its action makes of its arguments. -/
theorem evaluate_node {id : RuleId} {rule : Rule} {origin stop : Nat} {children : List Tree}
    (hrule : r.grammar.structural.rule? id = some rule) (hsplice : rule.isSplice = false) :
    (Tree.node id origin stop children).evaluate r actions =
      (argumentsFrom r actions rule 0 children >>= r.apply actions rule origin stop) := by
  simp [evaluate, arguments, hrule, hsplice]

end Tree

end

end Scannerless
