import Scannerless.Proofs.Evaluation.Leaves
import Scannerless.Proofs.Grammar.TierExactness

/-!
# Whose rules stand in a tree

Every structural rule is added by a definition. If it is not spliced, it is that of an
alternative or of a sequence, which the definition writes. A tree of a name has a single leaf,
which has a rule of a definition of that name on top: where the name is defined in tiers,
spliced rules lead to the rule of an alternative, each with one child.

## Main definitions

- `Grammar.Authored` — a rule that a definition of a name writes.
- `Grammar.Fills` — a tree that stands for an element of an alternative.

## Main statements

- `Lowered.exists_adds` — every rule is added by a statement.
- `Lowered.exists_leaf` — the leaf of a tree of a name.
- `Lowered.fills` — the leaf of a tree of an element.
-/

namespace Scannerless

/-- A rule that a definition of a name writes: it is added by one, and is not spliced. -/
def Grammar.Authored (ss : List Statement) (g : Grammar) (name : String) (id : RuleId) : Prop :=
  g.structural.isSplice id = false ∧ ∃ before s after, ss = before ++ s :: after ∧
    s.structuralName? = some name ∧ s.Adds ss before id

/-- What stands for an element of an alternative: a token of its symbol, or a rule that a
    definition of its name writes. -/
inductive Grammar.Fills (ss : List Statement) (g : Grammar) (raw : String) : Tree → Prop where
  | token {s : SymbolId} (place start stop : Nat) (hs : g.StandsFor raw s)
      (hrules : g.structural.hasRules s = false) : Fills ss g raw (.token s place start stop)
  | node {name : String} {id : RuleId} (origin stop : Nat) (children : List Tree)
      (hname : Element.decode raw = .ok (.name name)) (hid : Grammar.Authored ss g name id) :
      Fills ss g raw (.node id origin stop children)

theorem Grammar.standsFor_name_iff {g : Grammar} {raw name : String} {s : SymbolId}
    (h : Element.decode raw = .ok (.name name)) :
    g.StandsFor raw s ↔ g.findSymbol? name = some s := by
  rw [StandsFor, h]

/-! ### The definition of a rule -/

/-- One of the steps of a run is the first one behind which a property holds, if it holds at the
    end and not at the beginning. -/
theorem Drafting.exists_of_forM {α : Type} {f : α → Drafting Unit} {P : Draft → Prop} {xs : List α}
    {d d' : Draft} (h : (xs.forM f).run d = .ok ((), d')) (hd : ¬P d) (hd' : P d') :
    ∃ before x after e e', xs = before ++ x :: after ∧ (before.forM f).run d = .ok ((), e) ∧
      (f x).run e = .ok ((), e') ∧ ¬P e ∧ P e' := by
  induction xs generalizing d with
  | nil =>
    obtain rfl : d = d' := congrArg Prod.snd (Except.ok.inj h)
    exact absurd hd' hd
  | cons x xs ih =>
    obtain ⟨e, hx, hxs⟩ := run_forM_cons.mp h
    by_cases he : P e
    · exact ⟨[], x, xs, d, e, rfl, rfl, hx, hd, he⟩
    · obtain ⟨before, y, after, e₁, e₂, rfl, hbefore, hrest⟩ := ih hxs he
      exact ⟨x :: before, y, after, e₁, e₂, rfl, run_forM_cons.mpr ⟨e, hx, hbefore⟩, hrest⟩

namespace Lowered

variable {ss before after : List Statement} {g : Grammar} {o : Outline} {d : Draft} {id : RuleId}
  {r : Rule}

/-- Every structural rule is added by a statement: the first one behind which there are more rules
    than its number. -/
theorem exists_adds (h : Lowered ss g o d) (hr : g.structural.rule? id = some r) :
    ∃ before s after, ss = before ++ s :: after ∧ s.Adds ss before id := by
  obtain ⟨d₀, d₃, hdiscard, hstructural, hlexical⟩ := h.drafted.passes
  obtain ⟨hd₀, ⟨L₀, hgains⟩, -⟩ := Drafting.discardPass_run hdiscard (Draft.orderly_ofOutline o)
  obtain ⟨hd₃, -⟩ := Drafting.structuralPass_run hstructural hd₀
  obtain ⟨-, L₄, hgrows, -⟩ := Drafting.lexicalPass_run hlexical hd₃
  have hfirst : d₀.rules .structural = (Draft.ofOutline o).rules .structural ++ [] :=
    hgains.rules .structural
  have hlast : d.rules .structural = d₃.rules .structural ++ [] := hgrows.rules .structural
  have hzero : d₀.structural.size = 0 := congrArg List.length hfirst
  have hlt : id < d₃.structural.size := by
    rw [RuleTable.rule?, h.tables.2.1, ← Array.getElem?_toList] at hr
    rw [List.append_nil] at hlast
    rw [← Array.length_toList]
    exact (List.getElem?_eq_some_iff.mp (hlast ▸ hr : (d₃.rules .structural)[id]? = some r)).1
  obtain ⟨before, s, after, e, e', rfl, hbefore, hs, hle, hlt⟩ :=
    Drafting.exists_of_forM (P := fun e => id < e.structural.size) hstructural
      (Nat.not_lt_of_le (hzero ▸ Nat.zero_le id)) hlt
  exact ⟨before, s, after, rfl, o, e, e', h.outline,
    Drafting.run_bind.mpr ⟨(), d₀, hdiscard, hbefore⟩, hs, Nat.le_of_not_lt hle, hlt⟩

end Lowered

/-- A statement that adds rules is a structural one. -/
theorem Statement.Adds.exists_structural {ss before : List Statement} {s : Statement} {id : RuleId}
    (h : s.Adds ss before id) : ∃ spelling tiers offset, s = .structural spelling tiers offset := by
  obtain ⟨o, d₁, d₂, -, -, hrun, hle, hlt⟩ := h
  cases s with
  | structural spelling tiers offset => exact ⟨spelling, tiers, offset, rfl⟩
  | _ =>
    obtain rfl : d₁ = d₂ := congrArg Prod.snd (Except.ok.inj hrun)
    exact absurd hlt (Nat.not_lt_of_le hle)

theorem Tiering.length_rules {T : Tiering} {name : String} :
    (T.rules name).length = T.count + T.operators.length := by
  rw [rules, List.length_append, List.length_map, List.length_map, List.length_range]

theorem Tiering.isSplice_splice {T : Tiering} {name : String} {p : Nat} :
    (T.splice name p).isSplice = true := by
  rw [splice]
  split <;> rfl

namespace Footprint

variable {f : Footprint} {ss before after : List Statement} {spelling name : String}
  {tiers : List (List Alternative)} {offset : Nat} {g : Grammar} {o : Outline} {d : Draft}
  {T : Tiering} {id : RuleId} {r : Rule} {op : Operator} {l : Lattice} {i j p : Nat} {u : Tree}

/-- The spelling of a definition stands for the symbol of its name. -/
theorem LeftBy.lhs_eq (hf : f.LeftBy before after spelling tiers g o d) (h : Lowered ss g o d)
    {s : SymbolId} (hs : g.StandsFor spelling s) : f.lhs = s := by
  rw [Grammar.standsFor_name_iff hf.decode] at hs
  exact Option.some.inj ((h.findSymbol?_of_structuralId? hf.structuralId?).symm.trans hs)

/-- A footprint is left by one of some statements, which adds its rules. -/
structure LeftAmong (f : Footprint) (ss before after : List Statement) (spelling : String)
    (tiers : List (List Alternative)) (offset : Nat) (g : Grammar) (o : Outline) (d : Draft) :
    Prop extends f.LeftBy before after spelling tiers g o d where
  split : ss = before ++ .structural spelling tiers offset :: after
  adds : ∀ id, Statement.Adds ss before (.structural spelling tiers offset) id ↔ f.Has id

theorem LeftAmong.authored
    (hf : f.LeftAmong ss before after spelling tiers offset g o d) (hid : f.Has id)
    (hsplice : g.structural.isSplice id = false) : g.Authored ss f.name id :=
  ⟨hsplice, before, _, after, hf.split, Outline.structural_name hf.decode, (hf.adds id).mpr hid⟩

/-- A definition that is no plain one and no sequence has two tiers or more. -/
theorem LeftAmong.two_le_length (hf : f.LeftAmong ss before after spelling tiers offset g o d)
    (h : Lowered ss g o d) (hne : tiers.length ≠ 1) : 2 ≤ tiers.length := by
  have hinhabited := (Outline.lists_of_ofStatements h.outline).inhabited
    (.structural spelling tiers offset) (by simp [hf.split])
  have hpos := List.length_pos_of_ne_nil hinhabited.1
  omega

/-- All rules that are written for a name that is defined in tiers are those of its definition. -/
theorem LeftAmong.has_of_authored (hf : f.LeftAmong ss before after spelling tiers offset g o d)
    (h : Lowered ss g o d) (htiers : 2 ≤ tiers.length) (hid : g.Authored ss f.name id) :
    f.Has id := by
  obtain ⟨-, before', s, after', hss, hname, hadds⟩ := hid
  have hother : s ∉ before ++ after := fun hs =>
    hf.structuralName?_ne h hf.split htiers s hs hname
  rw [hf.split] at hss
  rcases List.append_eq_append_iff.mp hss with ⟨front, rfl, heq⟩ | ⟨front, rfl, heq⟩
  · cases front with
    | nil =>
      obtain ⟨rfl, -⟩ := List.cons.inj heq
      rw [List.append_nil] at hadds
      exact (hf.adds id).mp hadds
    | cons x front =>
      obtain ⟨-, rfl⟩ := List.cons.inj heq
      simp at hother
  · cases front with
    | nil =>
      obtain ⟨rfl, -⟩ := List.cons.inj heq
      exact (hf.adds id).mp (by rwa [List.append_nil])
    | cons x front =>
      obtain ⟨rfl, -⟩ := List.cons.inj heq
      simp at hother

theorem Tiers.has_of_operator? (hT : f.Tiers tiers o d T) (hop : T.operator? id = some op) :
    f.Has id := by
  obtain ⟨k, rfl, hk⟩ := Tiering.operator?_eq_some hop
  have hlt := (List.getElem?_eq_some_iff.mp hk).1
  rw [Has, hT.first, hT.rules, Tiering.length_rules]
  exact ⟨Nat.le_add_right _ _, Nat.add_lt_add_left (Nat.add_lt_add_left hlt _) _⟩

/-- In place of a spliced rule of a tier stands its only child. -/
theorem Tiers.leaves_splice (hT : f.Tiers tiers o d T)
    (hf : f.LeftBy before after spelling tiers g o d) (hp : p < T.count) (v : Tree) :
    (Tree.node (T.first + p) i j [v]).leaves g.structural = v.leaves g.structural := by
  have hkeeps : (T.splice f.name p).keeps 0 = true := by
    rw [Tiering.splice]
    split <;> rfl
  rw [Tree.leaves_of_isSplice (hT.rule?_splice hf hp) Tiering.isSplice_splice, Tree.leavesFrom,
    Tree.leavesFrom, if_pos hkeeps, List.append_nil]

theorem Tiers.isSplice_operator (hT : f.Tiers tiers o d T)
    (hf : f.LeftBy before after spelling tiers g o d) (hop : T.operator? id = some op) :
    g.structural.isSplice id = false := by
  rw [RuleTable.isSplice_eq (hT.rule?_operator hf hop)]
  rfl

/-- A tree of a tier has one leaf, the rule of an alternative of that tier or of a tighter one. -/
theorem Tiers.exists_leaf (hT : f.Tiers tiers o d T)
    (hf : f.LeftBy before after spelling tiers g o d) (ht : g.structural.Tiered T)
    (hp : p < T.count) (hu : g.structural.Reads l [T.level p] i j [u]) :
    ∃ id op vs, u.leaves g.structural = [.node id i j vs] ∧ T.operator? id = some op ∧
      op.tier ≤ p := by
  refine ht.level_induct (motive := fun p u => ∃ id op vs, u.leaves g.structural =
    [.node id i j vs] ∧ T.operator? id = some op ∧ op.tier ≤ p) ?_ ?_ hp hu
  · intro id op vs hop _
    have hleaf := Tree.IsLeaf.node i j vs (hT.isSplice_operator hf hop)
    exact ⟨id, op, vs, hleaf.leaves_eq, hop, Nat.le_refl _⟩
  · rintro p v hp - ⟨id, op, vs, hleaf, hop, hle⟩
    exact ⟨id, op, vs, (hT.leaves_splice hf hp v).trans hleaf, hop, Nat.le_succ_of_le hle⟩

/-- A tree of the name has one leaf, too. -/
theorem Tiers.exists_leaf_name (hT : f.Tiers tiers o d T)
    (hf : f.LeftBy before after spelling tiers g o d) (ht : g.structural.Tiered T)
    {vs : List Tree} (hvs : g.structural.Reads l [T.level (T.count - 1)] i j vs) :
    ∃ id op ws, (Tree.node T.first i j vs).leaves g.structural = [.node id i j ws] ∧
      T.operator? id = some op := by
  obtain ⟨v, rfl⟩ := List.length_eq_one_iff.mp hvs.length_eq
  obtain ⟨id, op, ws, hleaf, hop, -⟩ := hT.exists_leaf hf ht (Nat.sub_lt ht.pos Nat.one_pos) hvs
  exact ⟨id, op, ws, (hT.leaves_splice hf ht.pos v).trans hleaf, hop⟩

end Footprint

/-! ### Names and elements -/

namespace Lowered

variable {ss : List Statement} {g : Grammar} {o : Outline} {d : Draft} {id : RuleId} {r : Rule}
  {name raw : String} {s : SymbolId} {l : Lattice} {i j : Nat} {u : Tree} {vs : List Tree}

/-- Every structural rule is in the footprint of a definition. -/
theorem exists_leftAmong (h : Lowered ss g o d) (hr : g.structural.rule? id = some r) :
    ∃ f before after spelling tiers offset,
      Footprint.LeftAmong f ss before after spelling tiers offset g o d ∧ f.Has id := by
  obtain ⟨before, s, after, hss, hadds⟩ := h.exists_adds hr
  obtain ⟨spelling, tiers, offset, rfl⟩ := hadds.exists_structural
  obtain ⟨f, hf, hall⟩ := h.exists_footprint hss
  exact ⟨f, before, after, spelling, tiers, offset, ⟨hf, hss, hall⟩, (hall id).mp hadds⟩

/-- The leaf of a rule of a name is a rule that a definition of the name writes. -/
theorem exists_leaf (h : Lowered ss g o d) (hname : o.structuralId? name = some s)
    (hr : g.structural.rule? id = some r) (hlhs : r.lhs = s)
    (hvs : g.structural.Reads l r.rhs i j vs) :
    ∃ id' ws, (Tree.node id i j vs).leaves g.structural = [.node id' i j ws] ∧
      g.Authored ss name id' := by
  obtain ⟨f, before, after, spelling, tiers, offset, hf, hid⟩ := h.exists_leftAmong hr
  have hbefore := hf.lt_start s (Outline.isName_of_structuralId? hname)
  have hmem : r ∈ f.rules := hf.mem_rules_iff.mp ⟨id, hid, hr⟩
  have hsame (heq : f.lhs = s) : f.name = name :=
    Outline.structuralId?_inj (heq ▸ hf.structuralId?) hname
  have hself (hsplice : r.isSplice = false) (heq : f.lhs = s) :
      ∃ id' ws, (Tree.node id i j vs).leaves g.structural = [.node id' i j ws] ∧
        g.Authored ss name id' := by
    rw [← RuleTable.isSplice_eq hr] at hsplice
    exact ⟨id, vs, (Tree.IsLeaf.node i j vs hsplice).leaves_eq,
      hsame heq ▸ hf.authored hid hsplice⟩
  have hlowers := hf.lowers
  generalize hrules : f.rules = rules at hlowers
  cases hlowers with
  | plain _ hplain =>
    obtain ⟨alt, -, adverbs, rhs, -, -, rfl⟩ := exists_mem_of_forall₂ hplain.flip (hrules ▸ hmem)
    exact hself rfl hlhs
  | @sequence _ item q _ _ _ hstart _ =>
    rcases List.mem_append.mp (hrules ▸ hmem) with hitem | hname
    · -- The list of items is no name.
      have hitems := SequenceParts.lhs_of_mem_itemRules hitem
      exact absurd (hlhs ▸ hitems ▸ hstart) (Nat.not_le_of_lt hbefore)
    · rcases SequenceParts.mem_nameRules.mp hname with ⟨e, -, rfl⟩ | ⟨-, rfl⟩
      · exact hself rfl hlhs
      · exact hself rfl hlhs
  | tiers hne _ _ _ =>
    have htwo := hf.two_le_length h hne
    obtain ⟨T, hT⟩ := hf.exists_tiers h.orderly htwo
    have ht := hT.tiered hf.toLeftBy h hf.split htwo
    rcases hT.eq_first_or_isLevel hf.toLeftBy hid hr with ⟨rfl, heq⟩ | hlevel
    · rw [← RuleTable.rhs_of_rule? hr, ht.name_rhs] at hvs
      obtain ⟨id', op, ws, hleaf, hop⟩ := hT.exists_leaf_name hf.toLeftBy ht hvs
      have hlhs' : f.lhs = s := hT.lhs.symm.trans (heq.symm.trans hlhs)
      exact ⟨id', ws, hleaf, hsame hlhs' ▸ hf.authored (hT.has_of_operator? hop)
        (hT.isSplice_operator hf.toLeftBy hop)⟩
    · -- The symbols of tiers are no names.
      rw [hlhs] at hlevel
      exact absurd (Nat.le_trans hT.start hlevel.1) (Nat.not_le_of_lt hbefore)

/-- A symbol that stands for an element and has rules is that of a name. -/
theorem exists_structuralId? (h : Lowered ss g o d) (hs : d.StandsFor o raw s)
    (hrules : g.structural.hasRules s = true) :
    ∃ name, Element.decode raw = .ok (.name name) ∧ o.structuralId? name = some s := by
  have hlt : s < o.structural.length := by
    by_contra hle
    rw [h.hasRules_eq_false hs (Nat.le_of_not_lt hle)] at hrules
    cases hrules
  obtain ⟨e, he, hstands⟩ := hs
  cases hstands with
  | @structural name _ hid => exact ⟨name, he, hid⟩
  | lexical _ hid =>
    obtain ⟨k, _, -, rfl⟩ := Outline.lexicalId?_eq_some hid
    exact absurd hlt (Nat.not_lt_of_le (Nat.le_add_right _ _))
  | terminal ht hlookup =>
    have hname : o.IsName s := Nat.lt_of_lt_of_le hlt (Nat.le_add_right _ _)
    exact absurd hname (h.orderly.isTerminal ht hlookup).1

/-- A tree of an element has one leaf, which fills the place of the element. -/
theorem fills (h : Lowered ss g o d) (hs : d.StandsFor o raw s)
    (hu : g.structural.Reads l [s] i j [u]) :
    ∃ leaf, u.leaves g.structural = [leaf] ∧ g.Fills ss raw leaf := by
  rcases hu.singleton_cases with ⟨hrules, -, heq⟩ | ⟨id, vs, hid, hvs, heq⟩
  · obtain rfl := List.singleton_inj.mp heq
    exact ⟨_, (Tree.IsLeaf.token s i _ j).leaves_eq, .token i _ j (h.standsFor hs) hrules⟩
  · obtain rfl := List.singleton_inj.mp heq
    obtain ⟨name, hdecode, hname⟩ := h.exists_structuralId? hs (RuleTable.hasRules_of_mem hid)
    obtain ⟨r, hr, hlhs⟩ := RuleTable.lhs?_eq_some.mp ((h.coherent.structural s id).mp hid)
    rw [RuleTable.rhs_of_rule? hr] at hvs
    obtain ⟨id', ws, hleaf, hauthored⟩ := h.exists_leaf hname hr hlhs hvs
    exact ⟨_, hleaf, .node i j ws hdecode hauthored⟩

end Lowered

end Scannerless
