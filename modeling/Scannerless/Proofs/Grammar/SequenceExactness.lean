import Scannerless.Proofs.Grammar.Lexemes
import Scannerless.Proofs.Grammar.Sequences

/-!
# Sequences are exact

The rules that a sequence adds derive its words and nothing else. Whichever rule of its name
is used, it has the action and the rank of the statement, and as arguments the values of the
items and, if they are kept, those of the separators, from left to right.

## Main definitions

- `RuleTable.Sequence` — the rules of a sequence in a table.
- `Grammar.Sequences` — what the rules of a sequence are there for.

## Main statements

- `RuleTable.Sequence.derives_iff`, `RuleTable.Sequence.reads` — the strings and the trees of
  the name.
- `sequence_exact` — the rules that an accepted sequence adds are what they are there for.
-/

namespace Scannerless

/-! ### Rules of a sequence -/

namespace RuleTable

/-- The rules of a sequence, as a statement adds them to a table. -/
structure Sequence (t : RuleTable) (p : SequenceParts) (lhs : SymbolId) (name : String)
    (q : Quantifier) (added : RuleId → Prop) : Prop where
  lists : t.Lists p name
  ne_lhs : p.items ≠ lhs
  rules : ∀ r, (∃ id, added id ∧ t.rule? id = some r) ↔ r ∈ p.rules lhs name q
  own : ∀ id, t.lhs? id = some p.items → added id

namespace Sequence

variable {t : RuleTable} {p : SequenceParts} {lhs : SymbolId} {name : String} {q : Quantifier}
  {added : RuleId → Prop} {id : RuleId} {r : Rule} {w : List SymbolId} {l : Lattice} {i j : Nat}

theorem rule_cases (h : t.Sequence p lhs name q added) (hid : added id) (hr : t.rule? id = some r) :
    r ∈ p.itemRules name ∨ r ∈ p.nameRules lhs name q :=
  List.mem_append.mp ((h.rules r).mp ⟨id, hid, hr⟩)

theorem mem_nameRules (h : t.Sequence p lhs name q added) (hid : added id)
    (hr : t.rule? id = some r) (hlhs : r.lhs = lhs) : r ∈ p.nameRules lhs name q := by
  refine (h.rule_cases hid hr).resolve_left fun hitem => ?_
  obtain ⟨-, -, hitems⟩ := (h.lists.rules r).mpr hitem
  exact h.ne_lhs (hitems.symm.trans hlhs)

theorem exists_rule (h : t.Sequence p lhs name q added) (hr : r ∈ p.nameRules lhs name q) :
    ∃ id, added id ∧ t.rule? id = some r :=
  (h.rules r).mpr (List.mem_append_right _ hr)

theorem not_mem_ending (h : t.Sequence p lhs name q added) {e : List (SymbolId × Bool)}
    (he : p.Ending e) : p.items ∉ e.map Prod.fst := by
  cases he with
  | none => simp
  | separator hs _ => simpa using h.lists.ne_of_mem (Or.inr hs) ∘ Eq.symm

/-- The rules of the name derive the words of the sequence. -/
theorem derives_iff (h : t.Sequence p lhs name q added) :
    (∃ id, added id ∧ t.lhs? id = some lhs ∧
      Relation.ReflTransGen (t.RewritesBy fun id => t.lhs? id = some p.items) (t.rhs id) w ∧
        p.items ∉ w) ↔ ∃ m, p.Word q m ∧ w = m.map Prod.fst := by
  constructor
  · rintro ⟨id, hid, hlhs, hderives⟩
    obtain ⟨r, hr, hrlhs⟩ := lhs?_eq_some.mp hlhs
    rw [rhs_of_rule? hr] at hderives
    rcases SequenceParts.mem_nameRules.mp (h.mem_nameRules hid hr hrlhs) with
      ⟨e, he, rfl⟩ | ⟨hq, rfl⟩
    · obtain ⟨k, rfl⟩ := (h.lists.derives_iff (h.not_mem_ending he)).mp hderives
      exact ⟨_, SequenceParts.word_iff.mpr (Or.inl ⟨k, e, he, rfl⟩), List.map_append.symm⟩
    · rcases Relation.ReflTransGen.cases_head hderives.1 with rfl | ⟨v, hstep, -⟩
      · exact ⟨[], .none hq, rfl⟩
      · exact absurd hstep (Lists.not_rewrites List.not_mem_nil)
  · rintro ⟨m, hm, rfl⟩
    rcases SequenceParts.word_iff.mp hm with ⟨k, e, he, rfl⟩ | ⟨hq, rfl⟩
    · obtain ⟨id, hid, hr⟩ :=
        h.exists_rule (SequenceParts.mem_nameRules.mpr (Or.inl ⟨e, he, rfl⟩))
      refine ⟨id, hid, lhs?_eq_some.mpr ⟨_, hr, rfl⟩, ?_⟩
      rw [rhs_of_rule? hr]
      exact (h.lists.derives_iff (h.not_mem_ending he)).mpr ⟨k, List.map_append⟩
    · obtain ⟨id, hid, hr⟩ :=
        h.exists_rule (SequenceParts.mem_nameRules.mpr (Or.inr ⟨hq, rfl⟩))
      refine ⟨id, hid, lhs?_eq_some.mpr ⟨_, hr, rfl⟩, ?_⟩
      rw [rhs_of_rule? hr]
      exact ⟨.refl, List.not_mem_nil⟩

/-- The name is in none of its right sides. -/
theorem not_mem_rhs (h : t.Sequence p lhs name q added) (hseparator : p.separator ≠ some lhs)
    (hid : added id) (hlhs : t.lhs? id = some lhs) : lhs ∉ t.rhs id := by
  obtain ⟨r, hr, hrlhs⟩ := lhs?_eq_some.mp hlhs
  rw [rhs_of_rule? hr]
  rcases SequenceParts.mem_nameRules.mp (h.mem_nameRules hid hr hrlhs) with ⟨e, he, rfl⟩ | ⟨-, rfl⟩
  · intro hmem
    rcases List.mem_cons.mp hmem with hmem | hmem
    · exact h.ne_lhs hmem.symm
    · cases he with
      | none => cases hmem
      | separator hs _ => exact hseparator (List.mem_singleton.mp hmem ▸ hs)
  · exact List.not_mem_nil

/-- Once the name is replaced, only the list of items is. -/
theorem rewrites_items (h : t.Sequence p lhs name q added) {u v : List SymbolId}
    (hu : lhs ∉ u) (helement : lhs ≠ p.element) (hseparator : p.separator ≠ some lhs)
    (hstep : t.RewritesBy added u v) :
    t.RewritesBy (fun id => t.lhs? id = some p.items) u v ∧ lhs ∉ v := by
  obtain @⟨id, s, front, back, hid, hs⟩ := hstep
  obtain ⟨r, hr, rfl⟩ := lhs?_eq_some.mp hs
  have hitems : r.lhs = p.items := by
    refine ((SequenceParts.lhs_of_mem_rules ((h.rules r).mp ⟨id, hid, hr⟩))).resolve_left ?_
    rintro rfl
    simp at hu
  refine ⟨.expand front back (hitems ▸ hs) hs, ?_⟩
  have hrhs : lhs ∉ t.rhs id := by
    intro hmem
    have hnext : lhs ∉ p.next.map Prod.fst := by
      intro hmem
      obtain ⟨x, hx, rfl⟩ := List.mem_map.mp hmem
      rcases SequenceParts.mem_of_mem_next hx with hx | hx
      · exact helement hx
      · exact hseparator hx
    rcases h.lists.rhs_cases (hitems ▸ hs) with hrhs | hrhs
    · rw [hrhs] at hmem
      exact helement (List.mem_singleton.mp hmem)
    · rw [hrhs] at hmem
      rcases List.mem_cons.mp hmem with hmem | hmem
      · exact h.ne_lhs hmem.symm
      · exact hnext hmem
  simp only [List.mem_append, List.mem_cons, not_or] at hu ⊢
  exact ⟨⟨hu.1, hrhs⟩, hu.2.2⟩

theorem derives_items (h : t.Sequence p lhs name q added) {u : List SymbolId}
    (helement : lhs ≠ p.element) (hseparator : p.separator ≠ some lhs)
    (hderives : Relation.ReflTransGen (t.RewritesBy added) u w) (hu : lhs ∉ u) :
    Relation.ReflTransGen (t.RewritesBy fun id => t.lhs? id = some p.items) u w := by
  induction hderives using Relation.ReflTransGen.head_induction_on with
  | refl => exact .refl
  | head hstep _ ih =>
    obtain ⟨hitems, hv⟩ := h.rewrites_items hu helement hseparator hstep
    exact .head hitems (ih hv)

/-- The rules that are added derive the words of the sequence from the name, if the name is
    no item and no separator of its own. -/
theorem derives_lhs_iff (h : t.Sequence p lhs name q added) (helement : lhs ≠ p.element)
    (hseparator : p.separator ≠ some lhs) :
    (Relation.ReflTransGen (t.RewritesBy added) [lhs] w ∧
        ∀ s ∈ w, s = p.element ∨ p.separator = some s) ↔
      ∃ m, p.Word q m ∧ w = m.map Prod.fst := by
  constructor
  · rintro ⟨hderives, hw⟩
    rcases Relation.ReflTransGen.cases_head hderives with rfl | ⟨v, hstep, hrest⟩
    · rcases hw lhs List.mem_cons_self with hmem | hmem
      · exact absurd hmem helement
      · exact absurd hmem hseparator
    obtain ⟨id, hid, hlhs, rfl⟩ := hstep.of_singleton
    have hderives := h.derives_items helement hseparator hrest (h.not_mem_rhs hseparator hid hlhs)
    exact h.derives_iff.mp ⟨id, hid, hlhs, hderives,
      fun hmem => h.lists.ne_of_mem (hw _ hmem) rfl⟩
  · rintro ⟨m, hm, rfl⟩
    refine ⟨?_, fun s hs => hm.mem hs⟩
    obtain ⟨id, hid, hlhs, hderives, -⟩ := h.derives_iff.mpr ⟨m, hm, rfl⟩
    have hstep := RewritesBy.expand (t := t) [] [] hid hlhs
    rw [List.nil_append, List.nil_append, List.append_nil] at hstep
    refine .head hstep (Relation.ReflTransGen.mono (fun u v huv => ?_) _ _ hderives)
    obtain @⟨id, s, front, back, hown, hs⟩ := huv
    exact .expand front back (h.own id hown) hs

/-- A tree of the name has the trees of a word below the list of items, and the values of
    those that are kept are its arguments. -/
theorem reads (h : t.Sequence p lhs name q added) (hi : t.Indexed) (hp : t.PassesItems p)
    {ts : List Tree} (hid : added id) (hr : t.rule? id = some r) (hlhs : r.lhs = lhs)
    (hts : t.Reads l r.rhs i j ts) :
    ∃ m, p.Word q m ∧ t.Reads l (m.map Prod.fst) i j (Tree.spreadAll t p.items ts) ∧
      ∀ {V : Type} [Semantic V] (x : Recognition) (actions : Registry V),
        x.grammar.structural = t → Tree.argumentsFrom x actions r 0 ts =
          (kept (m.map Prod.snd) (Tree.spreadAll t p.items ts)).mapM (Tree.evaluate x actions) := by
  rcases SequenceParts.mem_nameRules.mp (h.mem_nameRules hid hr hlhs) with ⟨e, he, rfl⟩ | ⟨hq, rfl⟩
  · obtain ⟨tree, rest, k, m, rfl, htree, hrest⟩ := h.lists.exists_listed hi hp hts rfl
    have hmem : ∀ s ∈ e.map Prod.fst, s = p.element ∨ p.separator = some s := by
      cases he with
      | none => simp
      | separator hs _ => simpa using Or.inr hs
    refine ⟨p.listing k ++ e, SequenceParts.word_iff.mpr (Or.inl ⟨k, e, he, rfl⟩), ?_, ?_⟩
    · rw [Tree.spreadAll, hrest.spreadAll_eq hi (h.not_mem_ending he), List.map_append]
      exact htree.reads.append hrest
    · intro V _ x actions hx
      rw [Tree.spreadAll, hrest.spreadAll_eq hi (h.not_mem_ending he)]
      exact htree.argumentsFrom_eq hi hp hrest hmem rfl x actions hx
  · obtain ⟨rfl, rfl⟩ := hts.nil_inv
    exact ⟨[], .none hq, .nil i, fun x actions _ => rfl⟩

/-- Every word that is read makes up a tree of the name. -/
theorem exists_tree (h : t.Sequence p lhs name q added) (hi : t.Indexed)
    {m : List (SymbolId × Bool)} {us : List Tree} (hm : p.Word q m)
    (hus : t.Reads l (m.map Prod.fst) i j us) :
    ∃ id ts, added id ∧ t.lhs? id = some lhs ∧ t.Reads l (t.rhs id) i j ts ∧
      Tree.spreadAll t p.items ts = us := by
  rcases SequenceParts.word_iff.mp hm with ⟨k, e, he, rfl⟩ | ⟨hq, rfl⟩
  · obtain ⟨id, hid, hr⟩ := h.exists_rule (SequenceParts.mem_nameRules.mpr (Or.inl ⟨e, he, rfl⟩))
    rw [List.map_append] at hus
    obtain ⟨n, vs, rest, rfl, hvs, hrest⟩ := hus.of_append
    obtain ⟨tree, htree, rfl⟩ := h.lists.exists_tree hi hvs
    refine ⟨id, tree :: rest, hid, lhs?_eq_some.mpr ⟨_, hr, rfl⟩, ?_, ?_⟩
    · rw [rhs_of_rule? hr]
      exact htree.append hrest
    · rw [Tree.spreadAll, hrest.spreadAll_eq hi (h.not_mem_ending he)]
  · obtain ⟨id, hid, hr⟩ := h.exists_rule (SequenceParts.mem_nameRules.mpr (Or.inr ⟨hq, rfl⟩))
    obtain ⟨rfl, rfl⟩ := hus.nil_inv
    refine ⟨id, [], hid, lhs?_eq_some.mpr ⟨_, hr, rfl⟩, ?_, rfl⟩
    rw [rhs_of_rule? hr]
    exact .nil i

end Sequence

end RuleTable

/-! ### Exactness -/

/-- What the rules of a sequence are there for. Those of its name all have the action and the
    rank of the statement. They derive the words of the sequence, items and separators being
    left as they are. A tree of the name has the trees of a word below the list of items, and
    its action is applied to the values of those that are kept, from left to right. -/
structure Grammar.Sequences (g : Grammar) (p : SequenceParts) (lhs : SymbolId) (q : Quantifier)
    (added : RuleId → Prop) : Prop where
  own : ∀ id, g.structural.lhs? id = some p.items → added id
  lhs_cases : ∀ id r, added id → g.structural.rule? id = some r →
    r.lhs = p.items ∧ r.semantics = .splice ∨
      r.lhs = lhs ∧ r.semantics = .apply p.adverbs.action ∧ r.rank = p.adverbs.rank
  ne_lhs : p.items ≠ lhs
  ne_element : p.items ≠ p.element
  ne_separator : p.separator ≠ some p.items
  /-- A rule of the name, and then rules of the list of items, derive the words. -/
  derives_iff : ∀ w, (∃ id, added id ∧ g.structural.lhs? id = some lhs ∧
      Relation.ReflTransGen (g.structural.RewritesBy fun id => g.structural.lhs? id = some p.items)
        (g.structural.rhs id) w ∧ p.items ∉ w) ↔ ∃ m, p.Word q m ∧ w = m.map Prod.fst
  /-- So do all rules together, unless the name is the separator and is itself replaced. -/
  derives_lhs_iff : p.separator ≠ some lhs → ∀ w,
    (Relation.ReflTransGen (g.structural.RewritesBy added) [lhs] w ∧
      ∀ s ∈ w, s = p.element ∨ p.separator = some s) ↔ ∃ m, p.Word q m ∧ w = m.map Prod.fst
  reads : ∀ {l : Lattice} {i j : Nat} {id : RuleId} {r : Rule} {ts : List Tree}, added id →
    g.structural.rule? id = some r → r.lhs = lhs → g.structural.Reads l r.rhs i j ts →
    ∃ m, p.Word q m ∧
      g.structural.Reads l (m.map Prod.fst) i j (Tree.spreadAll g.structural p.items ts) ∧
      ∀ {V : Type} [Semantic V] (x : Recognition) (actions : Registry V), x.grammar = g →
        (Tree.node id i j ts).evaluate x actions =
          (kept (m.map Prod.snd) (Tree.spreadAll g.structural p.items ts)).mapM
            (Tree.evaluate x actions) >>= x.apply actions r i j
  exists_tree : ∀ {l : Lattice} {i j : Nat} {m : List (SymbolId × Bool)} {us : List Tree},
    p.Word q m → g.structural.Reads l (m.map Prod.fst) i j us →
    ∃ id ts, added id ∧ g.structural.lhs? id = some lhs ∧
      g.structural.Reads l (g.structural.rhs id) i j ts ∧
      Tree.spreadAll g.structural p.items ts = us

theorem RuleTable.Sequence.sequences {g : Grammar} {p : SequenceParts} {lhs : SymbolId}
    {name : String} {q : Quantifier} {added : RuleId → Prop}
    (h : g.structural.Sequence p lhs name q added) (hi : g.structural.Indexed)
    (hp : g.structural.PassesItems p) (helement : lhs ≠ p.element) :
    g.Sequences p lhs q added where
  own := h.own
  lhs_cases id r hid hr := by
    rcases h.rule_cases hid hr with hmem | hmem
    · rw [SequenceParts.itemRules_eq, List.mem_pair] at hmem
      rcases hmem with rfl | rfl
      · exact Or.inl ⟨rfl, rfl⟩
      · exact Or.inl ⟨rfl, rfl⟩
    · rcases SequenceParts.mem_nameRules.mp hmem with ⟨e, -, rfl⟩ | ⟨-, rfl⟩
      · exact Or.inr ⟨rfl, rfl, rfl⟩
      · exact Or.inr ⟨rfl, rfl, rfl⟩
  ne_lhs := h.ne_lhs
  ne_element := h.lists.ne_element
  ne_separator := h.lists.ne_separator
  derives_iff _ := h.derives_iff
  derives_lhs_iff hseparator _ := h.derives_lhs_iff helement hseparator
  reads {l i j id r ts} hid hr hlhs hts := by
    obtain ⟨m, hm, hreads, harguments⟩ := h.reads hi hp hid hr hlhs hts
    refine ⟨m, hm, hreads, fun {V} _ x actions hx => ?_⟩
    subst hx
    have hsplice : r.isSplice = false := by
      rcases SequenceParts.mem_nameRules.mp (h.mem_nameRules hid hr hlhs) with
        ⟨e, -, rfl⟩ | ⟨-, rfl⟩
      · rfl
      · rfl
    rw [Tree.evaluate_node hr hsplice, harguments x actions rfl]
  exists_tree := h.exists_tree hi

namespace Footprint

variable {f : Footprint} {ss before after : List Statement} {spelling raw : String}
  {tiers : List (List Alternative)} {g : Grammar} {o : Outline} {d : Draft} {id : RuleId}
  {s x : SymbolId}

/-- The own symbols of a definition stand for no spelling. -/
theorem LeftBy.ne_own (hf : f.LeftBy before after spelling tiers g o d) (h : Lowered ss g o d)
    (hs : d.StandsFor o raw s) (hid : g.structural.lhs? id = some x) (hx : f.start ≤ x) :
    x ≠ s := by
  rintro rfl
  have hname : o.structural.length ≤ x := by
    refine Nat.le_of_not_lt fun hlt => ?_
    exact Nat.not_lt_of_le hx (hf.lt_start x (Nat.lt_of_lt_of_le hlt (Nat.le_add_right _ _)))
  have hrules := h.hasRules_eq_false hs hname
  rw [h.coherent.structural.hasRules_of_lhs hid] at hrules
  cases hrules

/-- The rules that a sequence leaves. -/
theorem LeftBy.sequence (hf : f.LeftBy before after spelling tiers g o d) (h : Lowered ss g o d)
    {p : SequenceParts} {item : RhsItem} {alt : Alternative}
    (hrules : f.rules = p.rules f.lhs f.name item.quantifier)
    (hp : d.SequenceOf o f.name item alt p) (hstart : f.start ≤ p.items)
    (hstop : p.items < f.stop) :
    g.structural.Sequence p f.lhs f.name item.quantifier f.Has := by
  have hne : p.items ≠ f.lhs := by
    intro heq
    have hlt := hf.lt_start f.lhs (Outline.isName_of_structuralId? hf.structuralId?)
    exact Nat.not_lt_of_le (heq ▸ hstart) hlt
  have hmem (r : Rule) : (∃ id, f.Has id ∧ g.structural.rule? id = some r) ↔
      r ∈ p.rules f.lhs f.name item.quantifier :=
    hrules ▸ hf.mem_rules_iff
  have hitems (r : Rule) : (∃ id, g.structural.rule? id = some r ∧ r.lhs = p.items) ↔
      r ∈ p.itemRules f.name := by
    constructor
    · rintro ⟨id, hr, hlhs⟩
      have hhas := hf.has_of_own hr (hlhs ▸ hstart) (hlhs ▸ hstop)
      refine (List.mem_append.mp ((hmem r).mp ⟨id, hhas, hr⟩)).resolve_right fun hname => ?_
      rcases SequenceParts.mem_nameRules.mp hname with ⟨e, -, rfl⟩ | ⟨-, rfl⟩
      · exact hne hlhs.symm
      · exact hne hlhs.symm
    · intro hr
      obtain ⟨id, -, hid⟩ := (hmem r).mpr (List.mem_append_left _ hr)
      refine ⟨id, hid, ?_⟩
      rw [SequenceParts.itemRules_eq, List.mem_pair] at hr
      rcases hr with rfl | rfl
      · rfl
      · rfl
  obtain ⟨id, hid, hlhs⟩ :=
    (hitems _).mpr (SequenceParts.itemRules_eq p f.name ▸ List.mem_cons_self)
  have hid : g.structural.lhs? id = some p.items := RuleTable.lhs?_eq_some.mpr ⟨_, hid, hlhs⟩
  refine ⟨⟨hitems, hf.ne_own h hp.element hid hstart, fun heq => ?_⟩, hne, hmem, fun id hid => ?_⟩
  · obtain ⟨raw, hstands⟩ := hp.exists_standsFor heq
    exact hf.ne_own h hstands hid hstart rfl
  · obtain ⟨r, hr, hlhs⟩ := RuleTable.lhs?_eq_some.mp hid
    exact hf.has_of_own hr (hlhs ▸ hstart) (hlhs ▸ hstop)

end Footprint

/-- The name of a sequence is no item of it, since it would consist of itself alone. -/
theorem Grammar.Coherent.ne_element {g : Grammar} (hg : g.Coherent) {p : SequenceParts}
    {lhs : SymbolId} {name : String} {q : Quantifier} {added : RuleId → Prop}
    (h : g.structural.Sequence p lhs name q added) : lhs ≠ p.element := by
  intro heq
  obtain ⟨id, -, hr⟩ := h.exists_rule (SequenceParts.mem_nameRules.mpr (Or.inl ⟨[], .none, rfl⟩))
  have hid : g.structural.lhs? id = some lhs := RuleTable.lhs?_eq_some.mpr ⟨_, hr, rfl⟩
  obtain ⟨id', hid', hrhs'⟩ := h.lists.exists_first
  have hrhs : g.structural.rhs id = [] ++ p.items :: [] := RuleTable.rhs_of_rule? hr
  have hrhs' : g.structural.rhs id' = [] ++ lhs :: [] := heq ▸ hrhs'
  have hdown : p.items ∈ Draft.aloneFrom g.structural lhs :=
    hg.mem_aloneFrom hid hrhs (hg.structural.hasRules_of_lhs hid') (by simp)
  have hup : lhs ∈ Draft.aloneFrom g.structural p.items :=
    hg.mem_aloneFrom hid' hrhs' (hg.structural.hasRules_of_lhs hid) (by simp)
  exact WellFounded.asymmetric ⟨hg.acyclic⟩ _ _ hdown hup

/-- The rules that an accepted sequence adds make up its words, and its action has the values
    of the items and of the separators that are kept as arguments. -/
theorem sequence_exact {ss before after : List Statement} {description spelling : String}
    {alt : Alternative} {item : RhsItem} {offset : Nat} {g : Grammar}
    (h : Grammar.ofStatements ss description = .ok g)
    (hss : ss = before ++ .structural spelling [[alt]] offset :: after)
    (hitem : alt.rhs = [item]) (hq : item.quantifier = .star ∨ item.quantifier = .plus) :
    ∃ (p : SequenceParts) (lhs : SymbolId), g.StandsFor spelling lhs ∧
      RuleAdverbs.read true alt.adverbs = .ok p.adverbs ∧ g.StandsFor item.element p.element ∧
      Option.Rel (fun written s => g.StandsFor written.1 s) p.adverbs.separator p.separator ∧
      g.Sequences p lhs item.quantifier
        (Statement.Adds ss before (.structural spelling [[alt]] offset)) := by
  obtain ⟨o, d, hlowered⟩ := Lowered.exists_of_ofStatements h
  obtain ⟨f, hf, hadds⟩ := hlowered.exists_footprint hss
  have hlowers := hf.lowers
  generalize hrules : f.rules = rules at hlowers
  cases hlowers with
  | plain hplain _ =>
    have hone := hplain alt List.mem_cons_self item (hitem ▸ List.mem_cons_self)
    rw [hone] at hq
    rcases hq with hq | hq <;> cases hq
  | tiers htiers _ _ _ => exact absurd rfl htiers
  | @sequence _ item' p hitem' _ hp hstart hstop =>
    obtain rfl : item' = item := List.singleton_inj.mp (hitem'.symm.trans hitem)
    have hsequence := hf.sequence hlowered hrules hp hstart hstop
    obtain ⟨tiers, hpasses, htiers⟩ := hlowered.exists_passesOn
    have hparts : g.structural.PassesItems p := by
      refine ⟨tiers, hpasses, ?_⟩
      rintro s (rfl | hs)
      · exact htiers _ _ hp.element
      · obtain ⟨raw, hstands⟩ := hp.exists_standsFor hs
        exact htiers raw s hstands
    refine ⟨p, f.lhs, ?_, hp.adverbs, hlowered.standsFor hp.element, ?_, ?_⟩
    · exact hlowered.standsFor ⟨_, hf.decode, .structural hf.structuralId?⟩
    · have hrel := hp.separator
      generalize p.adverbs.separator = written, p.separator = separator at hrel
      cases hrel with
      | none => exact .none
      | some hstands => exact .some (hlowered.standsFor hstands)
    · rw [funext fun id => propext (hadds id)]
      exact hsequence.sequences hlowered.coherent.structural hparts
        (hlowered.coherent.ne_element hsequence)

/-- Any number of letters with commas between them and perhaps behind them. -/
def Definition.letters : Definition :=
  ⟨[.alternative "letters"
      (((Alternative.ofItems ["letter*"]).withAdverb "separator" "','").withAdverb "keep" "1"),
    .lexeme "letter" ["'a'"]], "letters"⟩

/-- The commas between letters are kept. -/
theorem sequence_exact_letters :
    ∃ g, Grammar.ofStatements Definition.letters.statements "letters" = .ok g ∧
      ∃ (p : SequenceParts) (lhs : SymbolId), g.StandsFor "letters" lhs ∧
        g.StandsFor "letter" p.element ∧ p.adverbs.keep = true ∧ p.adverbs.proper = false ∧
        (∃ s, p.separator = some s ∧ g.StandsFor "','" s) ∧
        ∃ added, g.Sequences p lhs .star added := by
  have haccepted : (Grammar.ofStatements Definition.letters.statements "letters").toOption.any
      (fun _ => true) = true := by
    decide +kernel
  obtain ⟨g, hg, -⟩ := exists_eq_ok_of_any haccepted
  have hitem : (Alternative.ofItems ["letter*"]).rhs = [⟨"letter", .star, 0⟩] := by
    decide +kernel
  obtain ⟨p, lhs, hlhs, hadverbs, helement, hseparator, hexact⟩ :=
    sequence_exact hg (List.nil_append _).symm hitem (Or.inl rfl)
  have hread : RuleAdverbs.read true [⟨"separator", "','", 0⟩, ⟨"keep", "1", 0⟩] =
      .ok ⟨none, .left, 0, some ("','", 0), false, true⟩ :=
    rfl
  obtain heq := Except.ok.inj (hadverbs.symm.trans hread)
  refine ⟨g, hg, p, lhs, hlhs, helement, by rw [heq], by rw [heq], ?_, _, hexact⟩
  rw [heq] at hseparator
  generalize p.separator = separator at hseparator
  cases hseparator with
  | some hstands => exact ⟨_, rfl, hstands⟩

end Scannerless
