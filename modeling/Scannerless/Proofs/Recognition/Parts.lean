import Scannerless.Proofs.Recognition.Policy

/-!
# Parts of trees

The trees below a tree are its parts. A part of a tree that was read is one that was read
itself, between places that tokens lead to. A part of a tree that the policy picks is one
that it picks: going up to each symbol of its rule, that symbol is read in the best way.

## Main definitions

- `Tree.HasPart` — a tree, one of its children, one of their children, and so on.

## Main statements

- `RuleTable.Reads.of_hasPart` — parts are read.
- `RuleTable.Prefers.of_hasPart` — the policy picks its trees part by part.
- `RuleTable.Prefers.at_symbol` — how it picks the tree of a symbol in a rule.
-/

namespace Scannerless

namespace Tree

/-- The trees right below a tree. -/
def children : Tree → List Tree
  | .token _ _ _ _ => []
  | .node _ _ _ below => below

/-- A tree, one of the trees right below it, one below these, and so on. -/
def HasPart : Tree → Tree → Prop :=
  Relation.ReflTransGen fun x y => y ∈ x.children

/-- The rule on top of a tree. -/
def rule? : Tree → Option RuleId
  | .token _ _ _ _ => none
  | .node id _ _ _ => some id

/-- The part of a tree that is found by going down to children with given places. -/
def part? : List Nat → Tree → Option Tree
  | [], tree => some tree
  | k :: ks, tree => tree.children[k]?.bind (part? ks)

variable {tree x : Tree} {id : RuleId} {origin stop : Nat} {us : List Tree}

theorem exists_of_rule? (h : tree.rule? = some id) :
    ∃ origin stop us, tree = .node id origin stop us := by
  cases tree with
  | token => cases h
  | node id' origin stop us =>
    obtain rfl := Option.some.inj h
    exact ⟨origin, stop, us, rfl⟩

theorem hasPart_of_part? {ks : List Nat} (h : tree.part? ks = some x) : tree.HasPart x := by
  induction ks generalizing tree with
  | nil =>
    obtain rfl := Option.some.inj h
    exact .refl
  | cons k ks ih =>
    obtain ⟨child, hchild, h⟩ := Option.bind_eq_some_iff.mp h
    exact .head (List.mem_of_getElem? hchild) (ih h)

theorem KeptIn.hasPart {t : RuleTable} (h : tree.KeptIn t x) : tree.HasPart x := by
  refine Relation.ReflTransGen.mono (fun _ _ hkeeps => ?_) _ _ h
  cases hkeeps with
  | child _ _ hchild => exact List.mem_of_getElem? hchild

theorem HasPart.eq_of_token {s : SymbolId} {place start : Nat}
    (h : (Tree.token s place start stop).HasPart x) : x = .token s place start stop := by
  rcases Relation.ReflTransGen.cases_head h with heq | ⟨_, hmem, -⟩
  · exact heq.symm
  · cases hmem

theorem HasPart.node_cases (h : (Tree.node id origin stop us).HasPart x) :
    x = .node id origin stop us ∨ ∃ child ∈ us, child.HasPart x := by
  rcases Relation.ReflTransGen.cases_head h with heq | ⟨child, hmem, hrest⟩
  · exact Or.inl heq.symm
  · exact Or.inr ⟨child, hmem, hrest⟩

end Tree

namespace RuleTable

variable {t : RuleTable} {l : Lattice} {ss rest : List SymbolId} {s : SymbolId} {i j : Nat}
  {ts : List Tree} {tree x : Tree}

/-- The parts of trees are read between places that tokens lead to. -/
theorem Reads.of_hasPart (h : t.Reads l ss i j ts) {P : Nat → Prop} (hfirst : P i)
    (hstep : ∀ k s m, P k → l.token k s m → P m) :
    P j ∧ ∀ tree ∈ ts, ∀ x, tree.HasPart x → ∃ s k m, t.Reads l [s] k m [x] ∧ P k ∧ P m := by
  induction h with
  | nil i => exact ⟨hfirst, by simp⟩
  | @token ss i k j ts s _ hs hj ih =>
    obtain ⟨hk, hts⟩ := ih hfirst
    refine ⟨hstep k s j hk hj, ?_⟩
    simp only [List.forall_mem_append, List.forall_mem_singleton]
    refine ⟨hts, fun x hx => ⟨s, k, j, ?_, hk, hstep k s j hk hj⟩⟩
    rw [hx.eq_of_token]
    exact (Reads.token (.nil k) hs hj :)
  | @node ss i k j ts us s id _ hid hus ihss ihus =>
    obtain ⟨hk, hts⟩ := ihss hfirst
    obtain ⟨hj, hbelow⟩ := ihus hk
    refine ⟨hj, ?_⟩
    simp only [List.forall_mem_append, List.forall_mem_singleton]
    refine ⟨hts, fun x hx => ?_⟩
    rcases hx.node_cases with rfl | ⟨child, hchild, hpart⟩
    · exact ⟨s, k, j, .of_rule hid hus, hk, hj⟩
    · exact hbelow child hchild x hpart

/-- A tree with a rule on top is read between its places, and the trees of the rule below it. -/
theorem Reads.node_inv {id : RuleId} {k m : Nat} {us : List Tree}
    (h : t.Reads l [s] i j [.node id k m us]) : i = k ∧ j = m ∧ t.Reads l (t.rhs id) k m us := by
  rcases h.singleton_cases with ⟨-, -, heq⟩ | ⟨id', vs, -, hvs, heq⟩
  · cases List.singleton_inj.mp heq
  · obtain ⟨rfl, rfl, rfl, rfl⟩ := Tree.node.inj (List.singleton_inj.mp heq)
    exact ⟨rfl, rfl, hvs⟩

/-- A part with a rule on top has trees of the rule below it. -/
theorem Reads.rhs_of_hasPart (h : t.Reads l ss i j ts) (hmem : tree ∈ ts) {id : RuleId}
    {k m : Nat} {us : List Tree} (hpart : tree.HasPart (.node id k m us)) :
    t.Reads l (t.rhs id) k m us := by
  obtain ⟨-, hparts⟩ := @Reads.of_hasPart t l ss i j ts h (fun _ => True) trivial
    fun _ _ _ _ _ => trivial
  obtain ⟨s, k', m', hread, -⟩ := hparts tree hmem _ hpart
  exact hread.node_inv.2.2

/-- What the policy picks it picks part by part. -/
theorem Prefers.of_hasPart (h : t.Prefers l ss i j ts) (hmem : tree ∈ ts) {id : RuleId}
    {k m : Nat} {us : List Tree} (hpart : tree.HasPart (.node id k m us)) :
    t.Prefers l (t.rhs id) k m us := by
  induction h generalizing tree with
  | nil => cases hmem
  | token _ _ ih =>
    rcases List.mem_append.mp hmem with hmem | hmem
    · exact ih hmem hpart
    · obtain rfl := List.mem_singleton.mp hmem
      cases hpart.eq_of_token
  | node _ _ hus ihss ihus =>
    rcases List.mem_append.mp hmem with hmem | hmem
    · exact ihss hmem hpart
    · obtain rfl := List.mem_singleton.mp hmem
      rcases hpart.node_cases with heq | ⟨child, hchild, hpart⟩
      · cases heq
        exact hus
      · exact ihus hchild hpart

/-- In front of other symbols the policy picks what it would pick without them. -/
theorem Prefers.of_append {vs : List Tree} (h : t.Prefers l (ss ++ rest) i j vs) :
    ∃ k ts us, vs = ts ++ us ∧ t.Prefers l ss i k ts ∧ t.Reads l rest k j us := by
  induction rest using List.reverseRecOn generalizing j vs with
  | nil =>
    rw [List.append_nil] at h
    exact ⟨j, vs, [], (List.append_nil vs).symm, h, .nil j⟩
  | append_singleton rest s ih =>
    rw [← List.append_assoc] at h
    obtain ⟨m, front, hfront, hlast⟩ := h.concat_cases
    obtain ⟨k, ts, us, rfl, hts, hus⟩ := ih hfront
    rcases hlast with ⟨hbest, rfl⟩ | ⟨id, ws, hbest, hws, rfl⟩
    · cases hbest.possible with
      | token _ hs hj => exact ⟨k, ts, _, List.append_assoc _ _ _, hts, .token hus hs hj⟩
    · cases hbest.possible with
      | node _ hid _ => exact ⟨k, ts, _, List.append_assoc _ _ _, hts, .node hus hid hws.reads⟩

/-- The tree of a symbol is picked as the best way to read it behind the symbols in front. -/
theorem Prefers.at_symbol {vs : List Tree} (h : t.Prefers l (ss ++ s :: rest) i j vs) :
    ∃ k m ts tree us, vs = ts ++ tree :: us ∧ t.Prefers l ss i k ts ∧
      ((t.Best l ss s i m (.token k) ∧ tree = .token s k (l.start k) m) ∨
        ∃ id ws, t.Best l ss s i m (.node id k) ∧ t.Prefers l (t.rhs id) k m ws ∧
          tree = .node id k m ws) := by
  rw [← List.concat_append, List.concat_eq_append] at h
  obtain ⟨m, front, us, rfl, hfront, -⟩ := h.of_append
  obtain ⟨k, ts, hts, ⟨hbest, rfl⟩ | ⟨id, ws, hbest, hws, rfl⟩⟩ := hfront.concat_cases
  · exact ⟨k, m, ts, _, us, List.append_assoc _ _ _, hts, Or.inl ⟨hbest, rfl⟩⟩
  · exact ⟨k, m, ts, _, us, List.append_assoc _ _ _, hts, Or.inr ⟨id, ws, hbest, hws, rfl⟩⟩

/-! ### The first of the rules over a span -/

/-- A rule of a symbol is the first of those that span the same places: it has the highest rank,
    and is the first one declared with this rank. -/
structure Foremost (t : RuleTable) (l : Lattice) (s : SymbolId) (i j : Nat) (id : RuleId) :
    Prop where
  mem : id ∈ t.rulesFor s
  spans : t.Spans l (t.rhs id) i j
  before : ∀ id' ∈ t.rulesFor s, t.Spans l (t.rhs id') i j → id' ≠ id →
    t.rank id' < t.rank id ∨ t.rank id = t.rank id' ∧ id < id'

/-- The best way to read a symbol is by the first of the rules over its span. -/
theorem Best.foremost {id : RuleId} {k : Nat} (h : t.Best l ss s i j (.node id k)) :
    t.Foremost l s k j id := by
  cases h.possible with
  | node hss hid hrhs =>
    refine ⟨hid, hrhs, fun id' hid' hrhs' hne => ?_⟩
    have hbetter := h.better (.node id' k) (.node hss hid' hrhs') (by simpa using hne)
    simp only [Better] at hbetter
    refine hbetter.imp_right fun hrank => ⟨hrank.1, hrank.2.resolve_right fun heq => ?_⟩
    exact hne heq.1.symm

/-- The tree of a symbol with rules has the first rule over its span on top. -/
theorem Prefers.at_place {vs : List Tree} {u : Tree} {n : Nat} (h : t.Prefers l ss i j vs)
    (hs : ss[n]? = some s) (hu : vs[n]? = some u) (hrules : t.hasRules s = true) :
    ∃ id k m ws, u = .node id k m ws ∧ t.Foremost l s k m id ∧ t.Prefers l (t.rhs id) k m ws := by
  obtain ⟨hn, rfl⟩ := List.getElem?_eq_some_iff.mp hs
  rw [← List.take_append_drop n ss, List.drop_eq_getElem_cons hn] at h
  obtain ⟨k, m, ts, tree, us, rfl, hts, hbest⟩ := h.at_symbol
  have hlength : ts.length = n := by
    rw [hts.reads.length_eq, List.length_take, min_eq_left hn.le]
  rw [← hlength, List.getElem?_append_right (Nat.le_refl _), Nat.sub_self] at hu
  obtain rfl := Option.some.inj hu
  rcases hbest with ⟨hbest, -⟩ | ⟨id, ws, hbest, hws, rfl⟩
  · cases hbest.possible with
    | token _ hnone _ =>
      rw [hnone] at hrules
      cases hrules
  · exact ⟨id, k, m, ws, rfl, hbest.foremost, hws⟩

/-- The only tree of a symbol with rules. -/
theorem Prefers.singleton_cases {us : List Tree} (h : t.Prefers l [s] i j us)
    (hrules : t.hasRules s = true) :
    ∃ id ws, us = [.node id i j ws] ∧ t.Foremost l s i j id ∧ t.Prefers l (t.rhs id) i j ws := by
  obtain ⟨u, rfl⟩ := List.length_eq_one_iff.mp h.reads.length_eq
  obtain ⟨id, k, m, ws, rfl, hforemost, hws⟩ := @at_place t l [s] s i j _ _ 0 h rfl rfl hrules
  obtain ⟨rfl, rfl, -⟩ := h.reads.node_inv
  exact ⟨id, ws, rfl, hforemost, hws⟩

end RuleTable

end Scannerless
