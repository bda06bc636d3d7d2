import Scannerless.Proofs.Evaluation.Arguments
import Scannerless.Proofs.Grammar.StructuralRules

/-!
# Sequences

A sequence is a list of items, with a separator between each two if there is one. Its rules
have a symbol of their own for the list, which grows at its end, and which hands the values
of the items on and, if they are kept, those of the separators in their places.

## Main definitions

- `SequenceParts.Word` — the words of a sequence, with what is kept of them.
- `RuleTable.RewritesBy` — rewriting by some of the rules.
- `Tree.spread` — the trees below the rules of a symbol.
- `RuleTable.Lists` — the rules of the list of items.

## Main statements

- `RuleTable.Lists.derives_iff` — what the list of items derives.
- `RuleTable.Lists.exists_listed`, `RuleTable.Lists.exists_tree` — the trees of the list of
  items, and their arguments.
-/

namespace Scannerless

/-! ### Words -/

namespace SequenceParts

variable {p : SequenceParts}

/-- What follows an item: a separator, if there is one, and another item. Each symbol comes
    with whether its values are kept. -/
def next (p : SequenceParts) : List (SymbolId × Bool) :=
  p.separator.toList.map (·, p.adverbs.keep) ++ [(p.element, true)]

/-- An item and some number of further ones. -/
def listing (p : SequenceParts) (k : Nat) : List (SymbolId × Bool) :=
  (p.element, true) :: (List.replicate k p.next).flatten

/-- The words of a sequence. A list of items may end in a separator unless the sequence is
    proper. -/
inductive Word (p : SequenceParts) (q : Quantifier) : List (SymbolId × Bool) → Prop where
  | items (k : Nat) : Word p q (p.listing k)
  | trailing (k : Nat) {s : SymbolId} (hs : p.separator = some s)
      (hproper : p.adverbs.proper = false) : Word p q (p.listing k ++ [(s, p.adverbs.keep)])
  | none (hq : q = .star) : Word p q []

/-- What may stand behind the list of items. -/
inductive Ending (p : SequenceParts) : List (SymbolId × Bool) → Prop where
  | none : Ending p []
  | separator {s : SymbolId} (hs : p.separator = some s) (hproper : p.adverbs.proper = false) :
      Ending p [(s, p.adverbs.keep)]

theorem listing_succ (k : Nat) : p.listing (k + 1) = p.listing k ++ p.next := by
  rw [listing, listing, List.replicate_succ', List.flatten_concat, List.cons_append]

theorem word_iff {q : Quantifier} {m : List (SymbolId × Bool)} :
    p.Word q m ↔ (∃ k e, p.Ending e ∧ m = p.listing k ++ e) ∨ q = .star ∧ m = [] := by
  constructor
  · rintro (k | ⟨k, hs, hproper⟩ | hq)
    · exact Or.inl ⟨k, [], .none, (List.append_nil _).symm⟩
    · exact Or.inl ⟨k, _, .separator hs hproper, rfl⟩
    · exact Or.inr ⟨hq, rfl⟩
  · rintro (⟨k, e, he, rfl⟩ | ⟨hq, rfl⟩)
    · cases he with
      | none =>
        rw [List.append_nil]
        exact .items k
      | separator hs hproper => exact .trailing k hs hproper
    · exact .none hq

theorem mem_of_mem_next {x : SymbolId × Bool} (h : x ∈ p.next) :
    x.1 = p.element ∨ p.separator = some x.1 := by
  rcases List.mem_append.mp h with h | h
  · obtain ⟨s, hs, rfl⟩ := List.mem_map.mp h
    exact Or.inr (Option.mem_toList.mp hs)
  · exact Or.inl (by rw [List.mem_singleton.mp h])

theorem mem_of_mem_listing {k : Nat} {x : SymbolId × Bool} (h : x ∈ p.listing k) :
    x.1 = p.element ∨ p.separator = some x.1 := by
  rcases List.mem_cons.mp h with rfl | h
  · exact Or.inl rfl
  · obtain ⟨xs, hxs, hx⟩ := List.mem_flatten.mp h
    rw [List.eq_of_mem_replicate hxs] at hx
    exact mem_of_mem_next hx

/-- A word consists of items and separators. -/
theorem Word.mem {q : Quantifier} {m : List (SymbolId × Bool)} (h : p.Word q m)
    {s : SymbolId} (hs : s ∈ m.map Prod.fst) : s = p.element ∨ p.separator = some s := by
  obtain ⟨x, hx, rfl⟩ := List.mem_map.mp hs
  cases h with
  | items k => exact mem_of_mem_listing hx
  | trailing k hseparator hproper =>
    rcases List.mem_append.mp hx with hx | hx
    · exact mem_of_mem_listing hx
    · rw [List.mem_singleton.mp hx]
      exact Or.inr hseparator
  | none hq => cases hx

theorem itemRules_eq (p : SequenceParts) (name : String) :
    p.itemRules name = [⟨p.items, [p.element], name, .splice, [true], 0⟩,
      ⟨p.items, p.items :: p.next.map Prod.fst, name, .splice, true :: p.next.map Prod.snd,
        0⟩] := by
  obtain ⟨adverbs, element, separator, items⟩ := p
  cases separator <;> rfl

theorem lhs_of_mem_itemRules {name : String} {r : Rule} (h : r ∈ p.itemRules name) :
    r.lhs = p.items := by
  rw [itemRules_eq, List.mem_pair] at h
  rcases h with rfl | rfl
  · rfl
  · rfl

theorem mem_nameRules {lhs : SymbolId} {name : String} {q : Quantifier} {r : Rule} :
    r ∈ p.nameRules lhs name q ↔
      (∃ e, p.Ending e ∧ r = ⟨lhs, p.items :: e.map Prod.fst, name, .apply p.adverbs.action,
        true :: e.map Prod.snd, p.adverbs.rank⟩) ∨
      q = .star ∧ r = ⟨lhs, [], name, .apply p.adverbs.action, [], p.adverbs.rank⟩ := by
  have hending (f : List (SymbolId × Bool) → Rule) : (∃ e, p.Ending e ∧ r = f e) ↔
      r = f [] ∨ ∃ s, p.separator = some s ∧ p.adverbs.proper = false ∧
        r = f [(s, p.adverbs.keep)] := by
    constructor
    · rintro ⟨e, he, rfl⟩
      cases he with
      | none => exact Or.inl rfl
      | separator hs hproper => exact Or.inr ⟨_, hs, hproper, rfl⟩
    · rintro (rfl | ⟨s, hs, hproper, rfl⟩)
      · exact ⟨[], .none, rfl⟩
      · exact ⟨_, .separator hs hproper, rfl⟩
  rw [hending, mem_nameRules_iff, or_assoc]
  rfl

end SequenceParts

/-! ### Strings -/

namespace RuleTable

variable {t : RuleTable} {p : SequenceParts} {name : String} {own : RuleId → Prop}
  {u v w : List SymbolId}

theorem lhs?_eq_some {id : RuleId} {s : SymbolId} :
    t.lhs? id = some s ↔ ∃ r, t.rule? id = some r ∧ r.lhs = s :=
  Option.map_eq_some_iff

/-- A symbol is replaced by the right side of one of its rules, if that is among some
    rules. -/
inductive RewritesBy (t : RuleTable) (own : RuleId → Prop) :
    List SymbolId → List SymbolId → Prop where
  | expand {id : RuleId} {s : SymbolId} (front back : List SymbolId) (hown : own id)
      (h : t.lhs? id = some s) : RewritesBy t own (front ++ s :: back) (front ++ t.rhs id ++ back)

/-- A single symbol is replaced by the right side of a rule of its own. -/
theorem RewritesBy.of_singleton {s : SymbolId} (h : t.RewritesBy own [s] v) :
    ∃ id, own id ∧ t.lhs? id = some s ∧ v = t.rhs id := by
  generalize hu : [s] = u at h
  obtain @⟨id, s', front, back, hown, hs⟩ := h
  cases front with
  | nil =>
    obtain ⟨rfl, rfl⟩ := List.cons.inj hu
    exact ⟨id, hown, hs, by simp⟩
  | cons x front =>
    obtain ⟨-, hnil⟩ := List.cons.inj hu
    simp at hnil

/-- The rules of the list of items of a sequence. -/
structure Lists (t : RuleTable) (p : SequenceParts) (name : String) : Prop where
  rules : ∀ r, (∃ id, t.rule? id = some r ∧ r.lhs = p.items) ↔ r ∈ p.itemRules name
  ne_element : p.items ≠ p.element
  ne_separator : p.separator ≠ some p.items

namespace Lists

theorem rhs_cases (h : t.Lists p name) {id : RuleId} (hid : t.lhs? id = some p.items) :
    t.rhs id = [p.element] ∨ t.rhs id = p.items :: p.next.map Prod.fst := by
  obtain ⟨r, hr, hlhs⟩ := lhs?_eq_some.mp hid
  have hmem := (h.rules r).mp ⟨id, hr, hlhs⟩
  rw [SequenceParts.itemRules_eq, List.mem_pair] at hmem
  rw [rhs_of_rule? hr]
  rcases hmem with rfl | rfl
  · exact Or.inl rfl
  · exact Or.inr rfl

theorem exists_first (h : t.Lists p name) :
    ∃ id, t.lhs? id = some p.items ∧ t.rhs id = [p.element] := by
  obtain ⟨id, hr, hlhs⟩ := (h.rules _).mpr (SequenceParts.itemRules_eq p name ▸ List.mem_cons_self)
  exact ⟨id, lhs?_eq_some.mpr ⟨_, hr, hlhs⟩, rhs_of_rule? hr⟩

theorem exists_next (h : t.Lists p name) :
    ∃ id, t.lhs? id = some p.items ∧ t.rhs id = p.items :: p.next.map Prod.fst := by
  obtain ⟨id, hr, hlhs⟩ := (h.rules _).mpr
    (SequenceParts.itemRules_eq p name ▸ List.mem_cons_of_mem _ List.mem_cons_self)
  exact ⟨id, lhs?_eq_some.mpr ⟨_, hr, hlhs⟩, rhs_of_rule? hr⟩

theorem ne_of_mem (h : t.Lists p name) {s : SymbolId} (hs : s = p.element ∨ p.separator = some s) :
    s ≠ p.items := by
  rintro rfl
  rcases hs with hs | hs
  · exact h.ne_element hs
  · exact h.ne_separator hs

theorem not_mem_next (h : t.Lists p name) : p.items ∉ p.next.map Prod.fst := by
  intro hmem
  obtain ⟨x, hx, heq⟩ := List.mem_map.mp hmem
  exact h.ne_of_mem (SequenceParts.mem_of_mem_next hx) heq

theorem not_mem_listing (h : t.Lists p name) (k : Nat) : p.items ∉ (p.listing k).map Prod.fst := by
  intro hmem
  obtain ⟨x, hx, heq⟩ := List.mem_map.mp hmem
  exact h.ne_of_mem (SequenceParts.mem_of_mem_listing hx) heq

/-- Rules of the list of items, applied to a list in front of other symbols. -/
theorem rewrites_cases (h : t.Lists p name) {rest : List SymbolId} (hrest : p.items ∉ rest)
    (hu : t.RewritesBy (fun id => t.lhs? id = some p.items) (p.items :: rest) v) :
    v = p.element :: rest ∨ v = p.items :: (p.next.map Prod.fst ++ rest) := by
  generalize heq : p.items :: rest = u at hu
  obtain @⟨id, s, front, back, hown, hs⟩ := hu
  obtain rfl := Option.some.inj (hown.symm.trans hs)
  cases front with
  | cons x front =>
    rw [List.cons_append, List.cons.injEq] at heq
    rw [heq.2] at hrest
    simp at hrest
  | nil =>
    obtain ⟨-, rfl⟩ := List.cons.inj heq
    rcases h.rhs_cases hown with hrhs | hrhs
    · exact Or.inl (by simp [hrhs])
    · exact Or.inr (by simp [hrhs])

theorem not_rewrites {t : RuleTable} {s : SymbolId} (hu : s ∉ u) :
    ¬t.RewritesBy (fun id => t.lhs? id = some s) u v := by
  rintro ⟨front, back, hown, hs⟩
  obtain rfl := Option.some.inj (hown.symm.trans hs)
  simp at hu

/-- The list of items in front of other symbols derives items with separators between
    them. -/
theorem derives_iff (h : t.Lists p name) {rest : List SymbolId} (hrest : p.items ∉ rest) :
    Relation.ReflTransGen (t.RewritesBy fun id => t.lhs? id = some p.items) (p.items :: rest) w ∧
        p.items ∉ w ↔
      ∃ k, w = (p.listing k).map Prod.fst ++ rest := by
  constructor
  · rintro ⟨hderives, hw⟩
    generalize hu : p.items :: rest = u at hderives
    induction hderives using Relation.ReflTransGen.head_induction_on generalizing rest with
    | refl =>
      rw [← hu] at hw
      exact absurd List.mem_cons_self hw
    | head hstep hrest' ih =>
      subst hu
      rcases h.rewrites_cases hrest hstep with rfl | rfl
      · -- Without the list of items in it nothing is rewritten any more.
        have hnone : p.items ∉ p.element :: rest := by
          simp [h.ne_element, hrest]
        rcases Relation.ReflTransGen.cases_head hrest' with rfl | ⟨x, hx, -⟩
        · exact ⟨0, rfl⟩
        · exact absurd hx (not_rewrites hnone)
      · have hnext : p.items ∉ p.next.map Prod.fst ++ rest := by
          simpa using ⟨by simpa using h.not_mem_next, hrest⟩
        obtain ⟨k, rfl⟩ := ih hnext rfl
        exact ⟨k + 1, by simp [SequenceParts.listing_succ]⟩
  · rintro ⟨k, rfl⟩
    refine ⟨?_, ?_⟩
    · induction k generalizing rest with
      | zero =>
        obtain ⟨id, hid, hrhs⟩ := h.exists_first
        have hstep : t.RewritesBy (fun id => t.lhs? id = some p.items) (p.items :: rest)
            (t.rhs id ++ rest) :=
          .expand [] rest hid hid
        rw [hrhs] at hstep
        exact .single hstep
      | succ k ih =>
        obtain ⟨id, hid, hrhs⟩ := h.exists_next
        have hstep : t.RewritesBy (fun id => t.lhs? id = some p.items) (p.items :: rest)
            (t.rhs id ++ rest) :=
          .expand [] rest hid hid
        rw [hrhs] at hstep
        have hnext : p.items ∉ p.next.map Prod.fst ++ rest := by
          simpa using ⟨by simpa using h.not_mem_next, hrest⟩
        rw [SequenceParts.listing_succ, List.map_append, List.append_assoc]
        exact .head hstep (ih hnext)
    · exact fun hmem => (List.mem_append.mp hmem).elim (h.not_mem_listing k) hrest

end Lists

end RuleTable

/-! ### Trees -/

namespace Tree

mutual

/-- A tree, or the trees below it if it has a rule of the symbol on top, and so on. -/
def spread (t : RuleTable) (s : SymbolId) : Tree → List Tree
  | .token x place start stop => [.token x place start stop]
  | .node id origin stop children =>
    if t.lhs? id = some s then spreadAll t s children else [.node id origin stop children]

/-- The trees that others are, or that are below them. -/
def spreadAll (t : RuleTable) (s : SymbolId) : List Tree → List Tree
  | [] => []
  | tree :: trees => spread t s tree ++ spreadAll t s trees

end

theorem spreadAll_append (t : RuleTable) (s : SymbolId) (ts us : List Tree) :
    spreadAll t s (ts ++ us) = spreadAll t s ts ++ spreadAll t s us := by
  induction ts with
  | nil => rfl
  | cons tree ts ih => rw [List.cons_append, spreadAll, ih, spreadAll, List.append_assoc]

theorem spreadAll_singleton (t : RuleTable) (s : SymbolId) (tree : Tree) :
    spreadAll t s [tree] = spread t s tree := by
  rw [spreadAll, spreadAll, List.append_nil]

end Tree

namespace RuleTable

variable {t : RuleTable} {p : SequenceParts} {name : String} {l : Lattice} {i j : Nat}

/-- The trees of other symbols stay as they are. -/
theorem Reads.spreadAll_eq (hi : t.Indexed) {ss : List SymbolId} {ts : List Tree} {s : SymbolId}
    (h : t.Reads l ss i j ts) (hs : s ∉ ss) : Tree.spreadAll t s ts = ts := by
  induction h with
  | nil => rfl
  | token _ _ _ ih =>
    rw [List.mem_append, not_or] at hs
    rw [Tree.spreadAll_append, ih hs.1, Tree.spreadAll_singleton, Tree.spread]
  | @node _ _ _ _ _ _ s' id _ hid _ ih =>
    rw [List.mem_append, not_or] at hs
    have hne : t.lhs? id ≠ some s := by
      rw [(hi s' id).mp hid, ne_eq, Option.some.injEq]
      rintro rfl
      exact hs.2 (List.mem_singleton_self _)
    rw [Tree.spreadAll_append, ih hs.1, Tree.spreadAll_singleton, Tree.spread, if_neg hne]

/-- The items and separators of a sequence pass single values on. -/
def PassesItems (t : RuleTable) (p : SequenceParts) : Prop :=
  ∃ tiers, t.PassesOn tiers ∧ ∀ s, s = p.element ∨ p.separator = some s → tiers s

/-- What is read of a list of items: the trees of its items and separators, whose values are
    the arguments that the list hands on. -/
structure Listed (t : RuleTable) (p : SequenceParts) (l : Lattice) (i j : Nat) (tree : Tree)
    (k : Nat) : Prop where
  reads : t.Reads l ((p.listing k).map Prod.fst) i j (tree.spread t p.items)
  arguments : ∀ {V : Type} [Semantic V] (r : Recognition) (actions : Registry V),
    r.grammar.structural = t → tree.arguments r actions =
      (kept ((p.listing k).map Prod.snd) (tree.spread t p.items)).mapM (Tree.evaluate r actions)

/-- The arguments of a rule with the list of items in front of other symbols. -/
theorem Listed.argumentsFrom_eq {tree : Tree} {k m : Nat} (h : t.Listed p l i m tree k)
    (hi : t.Indexed) (hp : t.PassesItems p) {e : List (SymbolId × Bool)} {rest : List Tree}
    (hrest : t.Reads l (e.map Prod.fst) m j rest)
    (he : ∀ s ∈ e.map Prod.fst, s = p.element ∨ p.separator = some s) {rule : Rule}
    (hmask : rule.mask = true :: e.map Prod.snd) {V : Type} [Semantic V] (r : Recognition)
    (actions : Registry V) (hr : r.grammar.structural = t) :
    Tree.argumentsFrom r actions rule 0 (tree :: rest) =
      (kept ((p.listing k ++ e).map Prod.snd) (tree.spread t p.items ++ rest)).mapM
        (Tree.evaluate r actions) := by
  obtain ⟨tiers, hpasses, htiers⟩ := hp
  obtain rfl := hr
  have hsingle : ∀ u ∈ rest, u.Single r actions :=
    hrest.single hi hpasses fun s hs => htiers s (he s hs)
  have hlength : ((p.listing k).map Prod.snd).length =
      (tree.spread r.grammar.structural p.items).length := by
    rw [h.reads.length_eq, List.length_map, List.length_map]
  have hkeeps : rule.keeps 0 = true := by
    rw [Rule.keeps, hmask]
    rfl
  rw [Tree.argumentsFrom, if_pos hkeeps, h.arguments r actions rfl,
    Tree.argumentsFrom_eq_mapM rule hsingle, hmask, List.map_append, kept_append hlength,
    List.mapM_append]
  rfl

namespace Lists

/-- A list of one item hands the value of the item on. -/
theorem listed_first (h : t.Lists p name) (hi : t.Indexed) (hp : t.PassesItems p) {id : RuleId}
    {r : Rule} (hr : t.rule? id = some r) (hlhs : r.lhs = p.items) (hmask : r.mask = [true])
    (hsplice : r.isSplice = true) {us : List Tree} (hus : t.Reads l [p.element] i j us) :
    t.Listed p l i j (.node id i j us) 0 := by
  have hspread : (Tree.node id i j us).spread t p.items = us := by
    rw [Tree.spread, if_pos (lhs?_eq_some.mpr ⟨r, hr, hlhs⟩)]
    exact hus.spreadAll_eq hi (by simp [h.ne_element])
  refine ⟨?_, fun {V} _ x actions hx => ?_⟩
  · rw [hspread]
    exact hus
  · obtain ⟨tiers, hpasses, htiers⟩ := hp
    obtain rfl := hx
    have hsingle : ∀ u ∈ us, u.Single x actions :=
      hus.single hi hpasses fun s hs => htiers s (Or.inl (List.mem_singleton.mp hs))
    rw [hspread, Tree.arguments, hr]
    simp only [Tree.argumentsFrom_eq_mapM _ hsingle, hsplice, hmask]
    simp [SequenceParts.listing]

/-- A longer list hands on what the list in it does, and the values behind it. -/
theorem listed_next (h : t.Lists p name) (hi : t.Indexed) (hp : t.PassesItems p) {id : RuleId}
    {r : Rule} (hr : t.rule? id = some r) (hlhs : r.lhs = p.items)
    (hmask : r.mask = true :: p.next.map Prod.snd) (hsplice : r.isSplice = true) {k m : Nat}
    {tree : Tree} {rest : List Tree} (htree : t.Listed p l i m tree k)
    (hrest : t.Reads l (p.next.map Prod.fst) m j rest) :
    t.Listed p l i j (.node id i j (tree :: rest)) (k + 1) := by
  have hspread : (Tree.node id i j (tree :: rest)).spread t p.items =
      tree.spread t p.items ++ rest := by
    rw [Tree.spread, if_pos (lhs?_eq_some.mpr ⟨r, hr, hlhs⟩), Tree.spreadAll,
      hrest.spreadAll_eq hi h.not_mem_next]
  refine ⟨?_, fun {V} _ x actions hx => ?_⟩
  · rw [hspread, SequenceParts.listing_succ, List.map_append]
    exact htree.reads.append hrest
  · have hnext : ∀ s ∈ p.next.map Prod.fst, s = p.element ∨ p.separator = some s := by
      intro s hs
      obtain ⟨y, hy, rfl⟩ := List.mem_map.mp hs
      exact SequenceParts.mem_of_mem_next hy
    rw [hspread, SequenceParts.listing_succ, Tree.arguments, hx, hr]
    simp only [htree.argumentsFrom_eq hi hp hrest hnext hmask x actions hx, hsplice]
    simp

/-- A tree with the list of items on top is read from items with separators between them. -/
theorem exists_listed (h : t.Lists p name) (hi : t.Indexed) (hp : t.PassesItems p)
    {ss tail : List SymbolId} {ts : List Tree} (hreads : t.Reads l ss i j ts)
    (hss : ss = p.items :: tail) :
    ∃ tree rest k m, ts = tree :: rest ∧ t.Listed p l i m tree k ∧ t.Reads l tail m j rest := by
  induction hreads generalizing tail with
  | nil => cases hss
  | @token ss i k j ts s hss' hs hj ih =>
    cases ss with
    | nil =>
      -- The list of items has rules.
      obtain ⟨rfl, -⟩ := List.cons.inj hss
      obtain ⟨id, hid, -⟩ := h.exists_first
      rw [hi.hasRules_of_lhs hid] at hs
      cases hs
    | cons x ss =>
      obtain ⟨rfl, rfl⟩ := List.cons.inj hss
      obtain ⟨tree, rest, n, m, rfl, hlisted, hrest⟩ := ih rfl
      exact ⟨tree, _, n, m, rfl, hlisted, .token hrest hs hj⟩
  | @node ss i k j ts us s id hss' hid hus ih ihus =>
    cases ss with
    | cons x ss =>
      obtain ⟨rfl, rfl⟩ := List.cons.inj hss
      obtain ⟨tree, rest, n, m, rfl, hlisted, hrest⟩ := ih rfl
      exact ⟨tree, _, n, m, rfl, hlisted, .node hrest hid hus⟩
    | nil =>
      obtain ⟨rfl, rfl⟩ := List.cons.inj hss
      obtain ⟨rfl, rfl⟩ := hss'.nil_inv
      obtain ⟨r, hr, hlhs⟩ := lhs?_eq_some.mp ((hi _ id).mp hid)
      have hmem := (h.rules r).mp ⟨id, hr, hlhs⟩
      rw [SequenceParts.itemRules_eq, List.mem_pair] at hmem
      rw [rhs_of_rule? hr] at hus ihus
      rcases hmem with rfl | rfl
      · exact ⟨_, [], 0, j, rfl, h.listed_first hi hp hr rfl rfl rfl hus, .nil j⟩
      · obtain ⟨tree, rest, n, m, rfl, htree, hrest⟩ := ihus rfl
        exact ⟨_, [], n + 1, j, rfl, h.listed_next hi hp hr rfl rfl rfl htree hrest, .nil j⟩

/-- Items with separators between them make up a tree with the list of items on top. -/
theorem exists_tree (h : t.Lists p name) (hi : t.Indexed) {k : Nat} {us : List Tree}
    (hus : t.Reads l ((p.listing k).map Prod.fst) i j us) :
    ∃ tree, t.Reads l [p.items] i j [tree] ∧ tree.spread t p.items = us := by
  induction k generalizing j us with
  | zero =>
    obtain ⟨id, hid, hrhs⟩ := h.exists_first
    have hne : p.items ∉ [p.element] := by
      simp [h.ne_element]
    refine ⟨.node id i j us, ?_, ?_⟩
    · exact .of_rule ((hi _ id).mpr hid) (hrhs ▸ hus)
    · rw [Tree.spread, if_pos hid]
      exact Reads.spreadAll_eq hi hus hne
  | succ k ih =>
    rw [SequenceParts.listing_succ, List.map_append] at hus
    obtain ⟨m, ts, rest, rfl, hts, hrest⟩ := hus.of_append
    obtain ⟨tree, htree, rfl⟩ := ih hts
    obtain ⟨id, hid, hrhs⟩ := h.exists_next
    refine ⟨.node id i j (tree :: rest), ?_, ?_⟩
    · refine .of_rule ((hi _ id).mpr hid) ?_
      rw [hrhs]
      exact htree.append hrest
    · rw [Tree.spread, if_pos hid, Tree.spreadAll, hrest.spreadAll_eq hi h.not_mem_next]

end Lists

end RuleTable

end Scannerless
