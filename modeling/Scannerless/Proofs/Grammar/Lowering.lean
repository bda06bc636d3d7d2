import Scannerless.Proofs.Grammar.Compiled
import Scannerless.Proofs.Grammar.Outlines
import Scannerless.Proofs.Grammar.StructuralRules

/-!
# Lowering of statements

What comes of an accepted list of statements, statement by statement: the rules of each
definition, and the symbols that stand for what is discarded.

## Main definitions

- `Drafting.discardStatement`, `Drafting.structuralStatement`, `Drafting.lexicalStatement` —
  the steps of the three passes over the statements.
- `Drafting.upTo` — the passes up to a structural statement.
- `Drafted` — a list of statements with its outline, its draft and a grammar of that.
- `Lowered` — an accepted list of statements with its outline, its draft and its grammar.
- `Footprint` — what a structural definition leaves in a grammar.
- `Passage` — how a structural statement is passed on the way to a draft.

## Main statements

- `Drafted.lexical` — the rules of a name with lexical rules are those of its alternatives.
- `Lowered.exists_footprint` — a structural statement adds the rules of its definition.
- `Lowered.findSymbol?_of_structuralId?` — a name is found in the grammar.
-/

namespace Scannerless

/-- Only a definition of a name has alternatives of the name. -/
theorem Statement.lexicalName?_of_mem {s : Statement} {name : String} {alt : Alternative}
    (h : alt ∈ s.lexicalAlternatives name) : s.lexicalName? = some name := by
  cases s with
  | lexical lhs alternatives offset =>
    simp only [Statement.lexicalAlternatives] at h
    split at h
    next defined hdecode =>
      split at h
      next heq => rw [Outline.lexical_name hdecode, heq]
      next => cases h
    next => cases h
  | _ => cases h

namespace Outline

variable {o : Outline} {ss : List Statement} {name : String} {s : SymbolId}

/-- A symbol is a name that is defined by one of some structural statements. -/
def Defined (o : Outline) (ss : List Statement) (s : SymbolId) : Prop :=
  ∃ x ∈ ss, ∃ name, x.structuralName? = some name ∧ o.structuralId? name = some s

theorem Defined.isName (h : o.Defined ss s) : o.IsName s := by
  obtain ⟨x, -, name, -, hid⟩ := h
  exact isName_of_structuralId? hid

theorem Defined.exists_statement (h : o.Defined ss s) (hs : o.structuralId? name = some s) :
    ∃ x ∈ ss, x.structuralName? = some name := by
  obtain ⟨x, hx, name', hname', hid⟩ := h
  obtain ⟨offset, hentry⟩ := structuralId?_eq_some hs
  obtain ⟨offset', hentry'⟩ := structuralId?_eq_some hid
  obtain ⟨rfl, -⟩ := Prod.mk.inj (Option.some.inj (hentry.symm.trans hentry'))
  exact ⟨x, hx, hname'⟩

end Outline

namespace Draft

variable {o : Outline} {d d' : Draft} {T : SymbolId → Prop} {S L : List Rule} {s : SymbolId}

/-- Rules of new symbols are none of an old one. -/
theorem Grows.rulesOf_lexical_eq (h : d.Grows T S L d') (hfresh : ∀ r ∈ L, d.symbols.size ≤ r.lhs)
    (hs : s < d.symbols.size) : d'.rulesOf .lexical s = d.rulesOf .lexical s := by
  have hnone : L.filter (·.lhs == s) = [] := by
    rw [List.filter_eq_nil_iff]
    intro r hr hlhs
    have hle := hfresh r hr
    rw [eq_of_beq hlhs] at hle
    exact Nat.not_lt_of_le hle hs
  rw [h.rulesOf_append, Level.pick, hnone, List.append_nil]

/-- A rule of an old name that a pass adds comes from a statement that defines the name. -/
theorem Grows.exists_statement {ss : List Statement} {name : String} {r : Rule}
    (h : d.Grows (o.Defined ss) S L d') (hid : o.structuralId? name = some s)
    (hlt : s < d.symbols.size) (hr : r ∈ S) (hlhs : r.lhs = s) :
    ∃ x ∈ ss, x.structuralName? = some name := by
  rcases h.owned r (List.mem_append_left L hr) with howned | hnew
  · exact Outline.Defined.exists_statement (hlhs ▸ howned) hid
  · rw [hlhs] at hnew
    exact absurd hlt (Nat.not_lt_of_le hnew)

end Draft

namespace Drafting

variable {o : Outline} {d d' : Draft}

/-- Reads a statement in the pass for what is discarded. -/
def discardStatement (o : Outline) : Statement → Drafting Unit
  | .discard element offset => discard o element offset
  | _ => pure ()

/-- Reads a statement in the pass for structural rules. -/
def structuralStatement (o : Outline) : Statement → Drafting Unit
  | .structural lhs tiers offset => structural o lhs tiers offset
  | _ => pure ()

/-- Reads a statement in the pass for lexical rules. -/
def lexicalStatement (o : Outline) : Statement → Drafting Unit
  | .lexical lhs alternatives offset => lexical o lhs alternatives offset
  | _ => pure ()

/-- Reads what is discarded by all statements and the structural rules of those that come
    first. -/
def upTo (o : Outline) (ss first : List Statement) : Drafting Unit := do
  ss.forM (discardStatement o)
  first.forM (structuralStatement o)

theorem statements_eq (o : Outline) (ss : List Statement) :
    statements o ss =
      (ss.forM (discardStatement o) >>= fun _ => ss.forM (structuralStatement o) >>= fun _ =>
        ss.forM (lexicalStatement o)) :=
  rfl

theorem run_forM_cons {α : Type} {f : α → Drafting Unit} {x : α} {xs : List α} {u : Unit} :
    ((x :: xs).forM f).run d = .ok (u, d') ↔
      ∃ e, (f x).run d = .ok ((), e) ∧ (xs.forM f).run e = .ok (u, d') := by
  have hcons : (x :: xs).forM f = (f x >>= fun _ => xs.forM f) := rfl
  rw [hcons, run_bind]
  constructor
  · rintro ⟨⟨⟩, e, hx, hxs⟩
    exact ⟨e, hx, hxs⟩
  · rintro ⟨e, hx, hxs⟩
    exact ⟨(), e, hx, hxs⟩

theorem run_forM_append {α : Type} {f : α → Drafting Unit} {xs ys : List α} {u : Unit} :
    ((xs ++ ys).forM f).run d = .ok (u, d') ↔
      ∃ e, (xs.forM f).run d = .ok ((), e) ∧ (ys.forM f).run e = .ok (u, d') := by
  induction xs generalizing d with
  | nil =>
    constructor
    · intro h
      exact ⟨d, rfl, h⟩
    · rintro ⟨e, hnil, h⟩
      obtain ⟨-, rfl⟩ := run_pure.mp hnil
      exact h
  | cons x xs ih =>
    rw [List.cons_append, run_forM_cons]
    simp only [ih, run_forM_cons]
    constructor
    · rintro ⟨e₁, hx, e, hxs, hys⟩
      exact ⟨e, ⟨e₁, hx, hxs⟩, hys⟩
    · rintro ⟨e, ⟨e₁, hx, hxs⟩, hys⟩
      exact ⟨e₁, hx, e, hxs, hys⟩

theorem discardStatement_run {s : Statement} {u : Unit}
    (h : (discardStatement o s).run d = .ok (u, d')) (hd : d.Orderly o) :
    d'.Orderly o ∧ (∃ L, d.Gains L d') ∧ ∀ element offset, s = .discard element offset →
      ∃ x ∈ d'.discards, d'.StandsFor o element x := by
  rw [discardStatement.eq_def] at h
  split at h
  next element offset =>
    obtain ⟨hd', hdiscarded, hgains⟩ := discard_run h hd
    refine ⟨hd', hgains, ?_⟩
    rintro _ _ ⟨⟩
    exact hdiscarded
  next hother =>
    obtain ⟨-, rfl⟩ := run_pure.mp h
    refine ⟨hd, ⟨[], .refl d _⟩, fun element offset heq => ?_⟩
    exact absurd heq (hother element offset)

/-- The pass for what is discarded makes nothing but lexemes. -/
theorem discardPass_run {ss : List Statement} {u : Unit}
    (h : (ss.forM (discardStatement o)).run d = .ok (u, d')) (hd : d.Orderly o) :
    d'.Orderly o ∧ (∃ L, d.Gains L d') ∧
      ∀ element offset, Statement.discard element offset ∈ ss →
        ∃ s ∈ d'.discards, d'.StandsFor o element s := by
  apply forM_induction (P := fun ss e => e.Orderly o ∧ (∃ L, d.Gains L e) ∧
    ∀ element offset, Statement.discard element offset ∈ ss →
      ∃ s ∈ e.discards, e.StandsFor o element s) h
  · exact ⟨hd, ⟨[], .refl d _⟩, by simp⟩
  rintro ss s e e' - ⟨he, ⟨L, hgains⟩, hdiscards⟩ hrun
  obtain ⟨he', ⟨L', hgains'⟩, hdiscard⟩ := discardStatement_run hrun he
  refine ⟨he', ⟨L ++ L', hgains.trans hgains'⟩, fun element offset hmem => ?_⟩
  rcases List.mem_append.mp hmem with hmem | hmem
  · obtain ⟨x, hx, hstands⟩ := hdiscards element offset hmem
    exact ⟨x, hgains'.discards x hx, hgains'.standsFor hstands⟩
  · exact hdiscard element offset (List.mem_singleton.mp hmem).symm

/-- Rules are made of elements and of symbols from a number on and before another one. -/
def MadeOf (o : Outline) (d : Draft) (start stop : SymbolId) (rules : List Rule) : Prop :=
  ∀ r ∈ rules, ∀ s ∈ r.rhs, (∃ raw, d.StandsFor o raw s) ∨ start ≤ s ∧ s < stop

theorem MadeOf.mono {T : SymbolId → Prop} {S L rules : List Rule}
    {start start' stop stop' : SymbolId} (h : MadeOf o d start stop rules)
    (hgrows : d.Grows T S L d') (hstart : start' ≤ start) (hstop : stop ≤ stop') :
    MadeOf o d' start' stop' rules := by
  intro r hr s hs
  rcases h r hr s hs with ⟨raw, hstands⟩ | ⟨hle, hlt⟩
  · exact Or.inl ⟨raw, hgrows.standsFor hstands⟩
  · exact Or.inr ⟨Nat.le_trans hstart hle, Nat.lt_of_lt_of_le hlt hstop⟩

/-- The rules of a structural definition are made of elements and of its own symbols. -/
theorem madeOf_of_lowers {start stop lhs : SymbolId} {name spelling : String}
    {tiers : List (List Alternative)} {rules : List Rule}
    (h : d.Lowers o start stop lhs name tiers rules)
    (hname : Element.decode spelling = .ok (.name name)) (hlhs : o.structuralId? name = some lhs) :
    MadeOf o d start stop rules := by
  intro r hr s hs
  rcases h.rhs_cases hr hs with hstands | rfl | hown
  · exact Or.inl hstands
  · exact Or.inl ⟨spelling, _, hname, .structural hlhs⟩
  · exact Or.inr hown

theorem structuralStatement_run {ss : List Statement} {s : Statement} {u : Unit}
    (h : (structuralStatement o s).run d = .ok (u, d')) (hd : d.Orderly o) (hs : s ∈ ss) :
    d'.Orderly o ∧ ∃ S L, d.Grows (o.Defined ss) S L d' ∧
      MadeOf o d' d.symbols.size d'.symbols.size S ∧ ∀ r ∈ L, d.symbols.size ≤ r.lhs := by
  rw [structuralStatement.eq_def] at h
  split at h
  · obtain ⟨name, hname, hd', ⟨-, rfl⟩ | ⟨lhs, rules, L, hid, hgrows, hlowers, hfresh⟩⟩ :=
      structural_run h hd
    · exact ⟨hd', [], [], .refl _ _, by simp [MadeOf], by simp⟩
    · have hdefined : o.Defined ss lhs := ⟨_, hs, name, Outline.structural_name hname, hid⟩
      exact ⟨hd', rules, L, hgrows.mono fun s hs => Or.inl (hs ▸ hdefined),
        madeOf_of_lowers hlowers hname hid, hfresh⟩
  · obtain ⟨-, rfl⟩ := run_pure.mp h
    exact ⟨hd, [], [], .refl d _, by simp [MadeOf], by simp⟩

/-- A pass for structural rules adds rules of the names that are defined and of new
    symbols. -/
theorem structuralPass_run {ss : List Statement} {u : Unit}
    (h : (ss.forM (structuralStatement o)).run d = .ok (u, d')) (hd : d.Orderly o) :
    d'.Orderly o ∧ ∃ S L, d.Grows (o.Defined ss) S L d' ∧
      MadeOf o d' d.symbols.size d'.symbols.size S ∧ ∀ r ∈ L, d.symbols.size ≤ r.lhs := by
  apply forM_induction (P := fun _ e => e.Orderly o ∧ ∃ S L, d.Grows (o.Defined ss) S L e ∧
    MadeOf o e d.symbols.size e.symbols.size S ∧ ∀ r ∈ L, d.symbols.size ≤ r.lhs) h
  · exact ⟨hd, [], [], .refl d _, by simp [MadeOf], by simp⟩
  rintro - s e e' hs ⟨he, S, L, hgrows, hmade, hfresh⟩ hrun
  obtain ⟨he', S', L', hgrows', hmade', hfresh'⟩ := structuralStatement_run hrun he hs
  refine ⟨he', S ++ S', L ++ L', hgrows.trans hgrows' fun _ => Or.inl, fun r hr => ?_,
    hgrows.fresh_append hfresh hfresh'⟩
  rcases List.mem_append.mp hr with hr | hr
  · exact hmade.mono hgrows' (Nat.le_refl _) hgrows'.size_le r hr
  · exact hmade'.mono (.refl e' fun _ => False) hgrows.size_le (Nat.le_refl _) r hr

theorem lexicalStatement_run {s : Statement} {u : Unit}
    (h : (lexicalStatement o s).run d = .ok (u, d')) (hd : d.Orderly o) :
    d'.Orderly o ∧ ∃ L, d.Grows o.IsName [] L d' ∧
      ∀ name id, o.lexicalId? name = some id → List.Forall₂ (d'.AlternativeRule o)
        (s.lexicalAlternatives name) (L.filter (·.lhs == id)) := by
  rw [lexicalStatement.eq_def] at h
  split at h
  · exact lexical_run h hd
  next hother =>
    obtain ⟨-, rfl⟩ := run_pure.mp h
    refine ⟨hd, [], .refl d _, fun name id _ => ?_⟩
    cases s with
    | lexical lhs alternatives offset => exact absurd rfl (hother lhs alternatives offset)
    | _ => exact .nil

/-- The pass for lexical rules adds the rules of the alternatives of every name. -/
theorem lexicalPass_run {ss : List Statement} {u : Unit}
    (h : (ss.forM (lexicalStatement o)).run d = .ok (u, d')) (hd : d.Orderly o) :
    d'.Orderly o ∧ ∃ L, d.Grows o.IsName [] L d' ∧
      ∀ name id, o.lexicalId? name = some id → List.Forall₂ (d'.AlternativeRule o)
        (lexicalAlternatives ss name) (L.filter (·.lhs == id)) := by
  apply forM_induction (P := fun ss e => e.Orderly o ∧ ∃ L, d.Grows o.IsName [] L e ∧
    ∀ name id, o.lexicalId? name = some id → List.Forall₂ (e.AlternativeRule o)
      (lexicalAlternatives ss name) (L.filter (·.lhs == id))) h
  · exact ⟨hd, [], .refl d _, fun _ _ _ => .nil⟩
  rintro ss s e e' - ⟨he, L, hgrows, hrules⟩ hrun
  obtain ⟨he', L', hgrows', hrules'⟩ := lexicalStatement_run hrun he
  refine ⟨he', L ++ L', hgrows.trans hgrows' fun _ => Or.inl, fun name id hid => ?_⟩
  rw [lexicalAlternatives, List.flatMap_append, ← lexicalAlternatives, List.flatMap_singleton,
    List.filter_append]
  refine List.rel_append ((hrules name id hid).imp fun _ _ => ?_) (hrules' name id hid)
  exact hgrows'.alternativeRule fun _ hname => hname

end Drafting

/-! ### Drafted and accepted statements -/

/-- A list of statements with its outline, with the draft that it leads to, and with a grammar
    of the symbols and rules of the draft, which need not have been accepted. -/
structure Drafted (ss : List Statement) (g : Grammar) (o : Outline) (d : Draft) : Prop where
  outline : Outline.ofStatements ss = .ok o
  draft : (Drafting.statements o ss).run (.ofOutline o) = .ok ((), d)
  tables : g.symbols = d.symbols ∧ g.structural = .ofRules d.structural d.symbols.size ∧
    g.lexical = .ofRules d.lexical d.symbols.size ∧ g.discards = d.discards

namespace Drafted

variable {ss : List Statement} {g : Grammar} {o : Outline} {d : Draft} {name : String}
  {s : SymbolId}

/-- The draft is the one of a valid plan. -/
theorem exists_plan (h : Drafted ss g o d) : ∃ p : Plan, p.draft = d ∧ p.Valid o := by
  obtain ⟨p, hp, hvalid, -, -⟩ := Plan.statements_leads (Plan.valid_ofOutline o) ss _ d h.draft
  exact ⟨p, hp, hvalid⟩

/-- Characters have no lexical rules. -/
theorem lexicon (h : Drafted ss g o d) : g.Lexicon := by
  obtain ⟨p, rfl, hp⟩ := h.exists_plan
  have hlhs : ∀ r ∈ p.draft.lexical.toList,
      p.draft.kind? r.lhs = some .lexeme ∨ p.draft.kind? r.lhs = some .lexical :=
    fun r hr => (hp.lexical r hr).1
  have hlt : ∀ r ∈ p.draft.lexical.toList, r.lhs < p.draft.symbols.size :=
    fun r hr => (hlhs r hr).elim Draft.lt_of_kind? Draft.lt_of_kind?
  constructor
  case indexed =>
    rw [h.tables.2.2.1]
    exact RuleTable.indexed_ofRules hlt
  case chars =>
    intro s cls hs
    rw [Grammar.charClass?_eq_some_iff, Grammar.kind?, h.tables.1, ← Draft.kind?] at hs
    refine Bool.eq_false_iff.mpr fun hrules => ?_
    obtain ⟨id, hid⟩ := RuleTable.exists_mem_rulesFor hrules
    rw [h.tables.2.2.1] at hid
    obtain ⟨r, hr, rfl⟩ :=
      RuleTable.exists_rule_of_lhs? ((RuleTable.indexed_ofRules hlt s id).mp hid)
    rcases hlhs r hr with hkind | hkind
    · rw [hs] at hkind
      cases hkind
    · rw [hs] at hkind
      cases hkind

theorem passes (h : Drafted ss g o d) : ∃ d₁ d₂,
    (ss.forM (Drafting.discardStatement o)).run (.ofOutline o) = .ok ((), d₁) ∧
    (ss.forM (Drafting.structuralStatement o)).run d₁ = .ok ((), d₂) ∧
    (ss.forM (Drafting.lexicalStatement o)).run d₂ = .ok ((), d) := by
  have hrun := h.draft
  rw [Drafting.statements_eq, Drafting.run_bind] at hrun
  obtain ⟨⟨⟩, d₁, hdiscard, hrun⟩ := hrun
  obtain ⟨⟨⟩, d₂, hstructural, hlexical⟩ := Drafting.run_bind.mp hrun
  exact ⟨d₁, d₂, hdiscard, hstructural, hlexical⟩

theorem orderly (h : Drafted ss g o d) : d.Orderly o := by
  obtain ⟨d₁, d₂, hdiscard, hstructural, hlexical⟩ := h.passes
  obtain ⟨hd₁, -⟩ := Drafting.discardPass_run hdiscard (Draft.orderly_ofOutline o)
  obtain ⟨hd₂, -⟩ := Drafting.structuralPass_run hstructural hd₁
  exact (Drafting.lexicalPass_run hlexical hd₂).1

/-- The rules of a name with lexical rules are those of its alternatives. -/
theorem lexical (h : Drafted ss g o d) (hs : o.lexicalId? name = some s) :
    List.Forall₂ (d.AlternativeRule o) (lexicalAlternatives ss name) (d.rulesOf .lexical s) := by
  obtain ⟨d₁, d₂, hdiscard, hstructural, hlexical⟩ := h.passes
  have hd₀ := Draft.orderly_ofOutline o
  have hname := Outline.isName_of_lexicalId? hs
  obtain ⟨hd₁, ⟨L₁, hgains⟩, -⟩ := Drafting.discardPass_run hdiscard hd₀
  obtain ⟨hd₂, S, L₂, hgrows, -, hfresh₂⟩ := Drafting.structuralPass_run hstructural hd₁
  obtain ⟨-, L, hrules, hall⟩ := Drafting.lexicalPass_run hlexical hd₂
  -- No name has lexical rules before the last pass.
  have hnone : d₂.rulesOf .lexical s = [] := by
    rw [hgrows.rulesOf_lexical_eq hfresh₂ (hd₁.lt_of_isName hname),
      hgains.rulesOf_lexical_eq hgains.fresh (hd₀.lt_of_isName hname)]
    simp [Draft.rulesOf, Draft.rules, Level.pick, Draft.ofOutline]
  rw [hrules.rulesOf_append, hnone]
  exact hall name s hs

end Drafted

/-- An accepted list of statements, with its outline, with the draft that it leads to and
    with its grammar. -/
structure Lowered (ss : List Statement) (g : Grammar) (o : Outline) (d : Draft) : Prop where
  outline : Outline.ofStatements ss = .ok o
  draft : (Drafting.statements o ss).run (.ofOutline o) = .ok ((), d)
  grammar : ∃ description, d.finish o description = .ok g

namespace Lowered

variable {ss : List Statement} {g : Grammar} {o : Outline} {d : Draft} {name : String}
  {s : SymbolId}

theorem exists_of_ofStatements {description : String}
    (h : Grammar.ofStatements ss description = .ok g) : ∃ o d, Lowered ss g o d := by
  rw [Grammar.ofStatements, bind_eq_ok_iff] at h
  obtain ⟨o, ho, h⟩ := h
  obtain ⟨⟨⟨⟩, d⟩, hd, h⟩ := bind_eq_ok_iff.mp h
  exact ⟨o, d, ho, hd, description, h⟩

theorem tables (h : Lowered ss g o d) :
    g.symbols = d.symbols ∧ g.structural = .ofRules d.structural d.symbols.size ∧
      g.lexical = .ofRules d.lexical d.symbols.size ∧ g.discards = d.discards := by
  obtain ⟨description, hfinish⟩ := h.grammar
  obtain ⟨start, -, -, -, rfl⟩ := Draft.finish_eq_ok hfinish
  exact ⟨rfl, rfl, rfl, rfl⟩

theorem drafted (h : Lowered ss g o d) : Drafted ss g o d :=
  ⟨h.outline, h.draft, h.tables⟩

theorem coherent (h : Lowered ss g o d) : g.Coherent := by
  obtain ⟨description, hfinish⟩ := h.grammar
  obtain ⟨p, rfl, hp⟩ := h.drafted.exists_plan
  exact Grammar.coherent_of_finish hp hfinish

theorem orderly (h : Lowered ss g o d) : d.Orderly o :=
  h.drafted.orderly

/-- What is discarded is the symbol that stands for the element. -/
theorem discards (h : Lowered ss g o d) {element : String} {offset : Nat}
    (hmem : Statement.discard element offset ∈ ss) :
    ∃ s ∈ g.discards, d.StandsFor o element s := by
  obtain ⟨d₁, d₂, hdiscard, hstructural, hlexical⟩ := h.drafted.passes
  obtain ⟨hd₁, -, hdiscards⟩ := Drafting.discardPass_run hdiscard (Draft.orderly_ofOutline o)
  obtain ⟨hd₂, S, L₂, hgrows, -⟩ := Drafting.structuralPass_run hstructural hd₁
  obtain ⟨-, L, hrules, -⟩ := Drafting.lexicalPass_run hlexical hd₂
  obtain ⟨s, hs, hstands⟩ := hdiscards element offset hmem
  rw [h.tables.2.2.2]
  exact ⟨s, hrules.discards s (hgrows.discards s hs), hrules.standsFor (hgrows.standsFor hstands)⟩

end Lowered

/-! ### Structural definitions -/

/-- What is not between two places of a list is before the first or behind the second. -/
theorem mem_of_getElem?_append {α : Type} {front middle back : List α} {i : Nat} {x : α}
    (h : (front ++ (middle ++ back))[i]? = some x)
    (hno : ¬(front.length ≤ i ∧ i < front.length + middle.length)) : x ∈ front ∨ x ∈ back := by
  rcases Nat.lt_or_ge i front.length with hi | hi
  · rw [List.getElem?_append_left hi] at h
    exact Or.inl (List.mem_of_getElem? h)
  · have hle : middle.length ≤ i - front.length := by omega
    rw [List.getElem?_append_right hi, List.getElem?_append_right hle] at h
    exact Or.inr (List.mem_of_getElem? h)

/-- The numbers of the structural rules that a statement adds to those of the statements
    before it. -/
def Statement.Adds (ss before : List Statement) (s : Statement) (id : RuleId) : Prop :=
  ∃ o d₁ d₂, Outline.ofStatements ss = .ok o ∧
    (Drafting.upTo o ss before).run (.ofOutline o) = .ok ((), d₁) ∧
    (Drafting.structuralStatement o s).run d₁ = .ok ((), d₂) ∧
    d₁.structural.size ≤ id ∧ id < d₂.structural.size

/-- What a structural definition leaves in a grammar: its name, its rules from the number of
    the first one on, and symbols of its own from `start` on and before `stop`. -/
structure Footprint where
  name : String
  lhs : SymbolId
  rules : List Rule
  first : RuleId
  start : SymbolId
  stop : SymbolId

namespace Footprint

variable {f : Footprint} {ss before after : List Statement} {spelling : String}
  {tiers : List (List Alternative)} {offset : Nat} {g : Grammar} {o : Outline} {d : Draft}
  {id : RuleId} {r : Rule}

/-- The numbers of the rules. -/
def Has (f : Footprint) (id : RuleId) : Prop :=
  f.first ≤ id ∧ id < f.first + f.rules.length

/-- A structural statement that comes behind some statements and before others leaves a
    footprint in the grammar of all of them. -/
structure LeftBy (f : Footprint) (before after : List Statement) (spelling : String)
    (tiers : List (List Alternative)) (g : Grammar) (o : Outline) (d : Draft) : Prop where
  decode : Element.decode spelling = .ok (.name f.name)
  structuralId? : o.structuralId? f.name = some f.lhs
  lowers : d.Lowers o f.start f.stop f.lhs f.name tiers f.rules
  lt_start : ∀ s, o.IsName s → s < f.start
  rule? : ∀ k r, f.rules[k]? = some r → g.structural.rule? (f.first + k) = some r
  elsewhere : ∀ id r, g.structural.rule? id = some r → ¬f.Has id →
    (r.lhs < f.start ∨ f.stop ≤ r.lhs) ∧
      (r.lhs = f.lhs → ∃ x ∈ before ++ after, x.structuralName? = some f.name) ∧
      ∀ s ∈ r.rhs, (∃ raw, d.StandsFor o raw s) ∨ s < f.start ∨ f.stop ≤ s

/-- The rules of a footprint by their numbers. -/
theorem LeftBy.mem_rules_iff (h : f.LeftBy before after spelling tiers g o d) :
    (∃ id, f.Has id ∧ g.structural.rule? id = some r) ↔ r ∈ f.rules := by
  constructor
  · rintro ⟨id, ⟨hle, hlt⟩, hr⟩
    obtain ⟨k, rfl⟩ := Nat.exists_eq_add_of_le hle
    have hk : k < f.rules.length := Nat.lt_of_add_lt_add_left hlt
    have hrule := h.rule? k _ (List.getElem?_eq_getElem hk)
    obtain rfl := Option.some.inj (hr.symm.trans hrule)
    exact List.getElem_mem hk
  · intro hr
    obtain ⟨k, hk, rfl⟩ := List.getElem_of_mem hr
    exact ⟨f.first + k, ⟨Nat.le_add_right _ _, Nat.add_lt_add_left hk _⟩,
      h.rule? k _ (List.getElem?_eq_getElem hk)⟩

/-- The own symbols of a definition have no other rules. -/
theorem LeftBy.has_of_own (h : f.LeftBy before after spelling tiers g o d)
    (hr : g.structural.rule? id = some r) (hstart : f.start ≤ r.lhs) (hstop : r.lhs < f.stop) :
    f.Has id := by
  by_contra hno
  rcases (h.elsewhere id r hr hno).1 with hlt | hle
  · exact Nat.not_lt_of_le hstart hlt
  · exact Nat.not_lt_of_le hle hstop

end Footprint

/-- How a structural statement is passed: the drafts before it and behind it, the name that it
    defines with its symbol, the rules that it adds, and the rules that the statements after it
    add. -/
structure Passage where
  front : Draft
  back : Draft
  name : String
  lhs : SymbolId
  rules : List Rule
  rest : List Rule

/-- A structural statement is passed behind some statements and before others, on the way to
    a draft. -/
structure Passage.Through (p : Passage) (ss before after : List Statement) (spelling : String)
    (tiers : List (List Alternative)) (offset : Nat) (o : Outline) (d : Draft) : Prop where
  upTo : (Drafting.upTo o ss before).run (.ofOutline o) = .ok ((), p.front)
  run : (Drafting.structural o spelling tiers offset).run p.front = .ok ((), p.back)
  decode : Element.decode spelling = .ok (.name p.name)
  structuralId? : o.structuralId? p.name = some p.lhs
  orderly : p.front.Orderly o
  lowers : d.Lowers o p.front.symbols.size p.back.symbols.size p.lhs p.name tiers p.rules
  structural_back : p.back.structural.toList = p.front.structural.toList ++ p.rules
  structural_eq : d.structural.toList = p.front.structural.toList ++ (p.rules ++ p.rest)
  owned : ∀ r ∈ p.front.structural.toList, r.lhs = p.lhs →
    ∃ x ∈ before, x.structuralName? = some p.name
  fresh : ∀ r ∈ p.rest, r.lhs < p.front.symbols.size ∨ p.back.symbols.size ≤ r.lhs
  owned_rest : ∀ r ∈ p.rest, r.lhs = p.lhs → ∃ x ∈ after, x.structuralName? = some p.name
  madeOf : Drafting.MadeOf o d 0 p.front.symbols.size p.front.structural.toList
  madeOf_rest : Drafting.MadeOf o d p.back.symbols.size d.symbols.size p.rest

namespace Lowered

variable {ss : List Statement} {g : Grammar} {o : Outline} {d : Draft} {name : String}
  {s : SymbolId}

theorem exists_structuralId?_of_mem (h : Lowered ss g o d) {spelling : String}
    {tiers : List (List Alternative)} {offset : Nat}
    (hmem : Statement.structural spelling tiers offset ∈ ss)
    (hname : Element.decode spelling = .ok (.name name)) :
    ∃ lhs, o.structuralId? name = some lhs := by
  rw [← Outline.isStructural_iff, (Outline.lists_of_ofStatements h.outline).structural]
  exact ⟨_, hmem, Outline.structural_name hname⟩

/-- The structural rules of accepted statements are those of the statements before a
    structural one, its own, and those of the statements after it. -/
theorem exists_passage (h : Lowered ss g o d) {before after : List Statement} {spelling : String}
    {tiers : List (List Alternative)} {offset : Nat}
    (hss : ss = before ++ .structural spelling tiers offset :: after) :
    ∃ p : Passage, p.Through ss before after spelling tiers offset o d := by
  obtain ⟨d₀, d₃, hdiscard, hstructural, hlexical⟩ := h.drafted.passes
  obtain ⟨hd₀, ⟨L₀, hgains⟩, -⟩ := Drafting.discardPass_run hdiscard (Draft.orderly_ofOutline o)
  have hsplit : ((before ++ .structural spelling tiers offset :: after).forM
      (Drafting.structuralStatement o)).run d₀ = .ok ((), d₃) := hss ▸ hstructural
  obtain ⟨d₁, hbefore, hrest⟩ := Drafting.run_forM_append.mp hsplit
  obtain ⟨d₂, hstatement, hafter⟩ := Drafting.run_forM_cons.mp hrest
  obtain ⟨hd₁, S, L₁, hgrows₁, hmade₁, -⟩ := Drafting.structuralPass_run hbefore hd₀
  obtain ⟨name, hname, hd₂, hcases⟩ := Drafting.structural_run hstatement hd₁
  obtain ⟨hd₃, R, L₃, hgrows₃, hmade₃, -⟩ := Drafting.structuralPass_run hafter hd₂
  obtain ⟨-, L₄, hgrows₄, -⟩ := Drafting.lexicalPass_run hlexical hd₃
  have hmem : Statement.structural spelling tiers offset ∈ ss := by simp [hss]
  obtain ⟨lhs, hlhs⟩ := h.exists_structuralId?_of_mem hmem hname
  rcases hcases with ⟨hnone, -⟩ | ⟨lhs', rules, L, hlhs', hgrows, hlowers, -⟩
  · rw [hlhs] at hnone
    cases hnone
  obtain rfl := Option.some.inj (hlhs.symm.trans hlhs')
  have hisName := Outline.isName_of_structuralId? hlhs
  have hone : d₁.rules .structural = S := by
    rw [hgrows₁.rules, hgains.rules]
    rfl
  have htwo : d₂.rules .structural = d₁.rules .structural ++ rules := hgrows.rules .structural
  have hall : d.rules .structural = (d₂.rules .structural ++ R) ++ [] := by
    rw [hgrows₄.rules, hgrows₃.rules]
    rfl
  rw [List.append_nil, htwo, List.append_assoc] at hall
  have hold : Drafting.MadeOf o d 0 d₁.symbols.size S :=
    ((hmade₁.mono hgrows (Nat.zero_le _) (Nat.le_refl _)).mono hgrows₃ (Nat.le_refl _)
      (Nat.le_refl _)).mono hgrows₄ (Nat.le_refl _) (Nat.le_refl _)
  refine ⟨⟨d₁, d₂, name, lhs, rules, R⟩,
    { upTo := Drafting.run_bind.mpr ⟨(), d₀, hdiscard, hbefore⟩
      run := hstatement
      decode := hname
      structuralId? := hlhs
      orderly := hd₁
      lowers := hgrows₄.lowers (hgrows₃.lowers hlowers)
      structural_back := htwo
      structural_eq := hall
      owned := fun r hr =>
        hgrows₁.exists_statement hlhs (hd₀.lt_of_isName hisName) (hone ▸ hr)
      fresh := fun r hr => ?_
      owned_rest := fun r => hgrows₃.exists_statement hlhs (hd₂.lt_of_isName hisName)
      madeOf := fun r hr => hold r (hone ▸ hr)
      madeOf_rest := hmade₃.mono hgrows₄ (Nat.le_refl _) hgrows₄.size_le }⟩
  exact (hgrows₃.owned r (List.mem_append_left _ hr)).imp_left fun hdefined =>
    hd₁.lt_of_isName hdefined.isName

/-- A structural statement adds the rules of its definition to those of the statements
    before it. -/
theorem exists_footprint (h : Lowered ss g o d) {before after : List Statement}
    {spelling : String} {tiers : List (List Alternative)} {offset : Nat}
    (hss : ss = before ++ .structural spelling tiers offset :: after) :
    ∃ f : Footprint, f.LeftBy before after spelling tiers g o d ∧
      ∀ id, Statement.Adds ss before (.structural spelling tiers offset) id ↔ f.Has id := by
  obtain ⟨⟨d₁, d₂, name, lhs, rules, R⟩, p⟩ := h.exists_passage hss
  have hsize : d₂.structural.size = d₁.structural.size + rules.length := by
    rw [← Array.length_toList, p.structural_back, List.length_append, Array.length_toList]
  have hrule (id : RuleId) :
      g.structural.rule? id = (d₁.structural.toList ++ (rules ++ R))[id]? := by
    rw [h.tables.2.1, ← p.structural_eq, Array.getElem?_toList]
    rfl
  let f : Footprint := ⟨name, lhs, rules, d₁.structural.size, d₁.symbols.size, d₂.symbols.size⟩
  refine ⟨f, ⟨p.decode, p.structuralId?, p.lowers, fun s => p.orderly.lt_of_isName,
    fun k r hr => ?_, fun id r hr hno => ?_⟩, fun id => ⟨?_, fun ⟨hle, hlt⟩ => ?_⟩⟩
  · obtain ⟨hk, -⟩ := List.getElem?_eq_some_iff.mp hr
    change g.structural.rule? (d₁.structural.size + k) = some r
    rw [hrule, ← Array.length_toList, List.getElem?_append_right (Nat.le_add_right _ _),
      Nat.add_sub_cancel_left, List.getElem?_append_left hk]
    exact hr
  · rw [hrule] at hr
    rcases mem_of_getElem?_append hr (by rwa [Array.length_toList]) with hmem | hmem
    · refine ⟨Or.inl (p.orderly.bounded .structural r hmem), fun heq => ?_, fun s hs => ?_⟩
      · obtain ⟨x, hx, hxname⟩ := p.owned r hmem heq
        exact ⟨x, List.mem_append_left _ hx, hxname⟩
      · exact (p.madeOf r hmem s hs).imp_right fun hold => Or.inl hold.2
    · refine ⟨p.fresh r hmem, fun heq => ?_, fun s hs => ?_⟩
      · obtain ⟨x, hx, hxname⟩ := p.owned_rest r hmem heq
        exact ⟨x, List.mem_append_right _ hx, hxname⟩
      · exact (p.madeOf_rest r hmem s hs).imp_right fun hnew => Or.inr hnew.1
  · rintro ⟨o', e₁, e₂, ho', he₁, he₂, hle, hlt⟩
    obtain rfl := Except.ok.inj (h.outline.symm.trans ho')
    obtain ⟨-, rfl⟩ := Prod.mk.inj (Except.ok.inj (p.upTo.symm.trans he₁))
    obtain ⟨-, rfl⟩ := Prod.mk.inj (Except.ok.inj (p.run.symm.trans he₂))
    exact ⟨hle, Nat.lt_of_lt_of_eq hlt hsize⟩
  · exact ⟨o, d₁, d₂, h.outline, p.upTo, p.run, hle, Nat.lt_of_lt_of_eq hlt hsize.symm⟩

/-! ### Names of the grammar -/

/-- The names of an outline, those with structural rules first. -/
theorem name_eq (h : Lowered ss g o d) {i : Nat} {x : Symbol} (hx : g.symbols[i]? = some x)
    (hi : o.IsName i) : ∃ e, (o.structural ++ o.lexical)[i]? = some e ∧ x.name = e.1 := by
  rw [h.tables.1] at hx
  by_cases hlt : i < o.structural.length
  · have hname := h.orderly.structuralName i _ (List.getElem?_eq_getElem hlt)
    obtain rfl := Option.some.inj (hx.symm.trans hname)
    exact ⟨_, by rw [List.getElem?_append_left hlt, List.getElem?_eq_getElem hlt], rfl⟩
  · obtain ⟨k, rfl⟩ := Nat.exists_eq_add_of_le (Nat.le_of_not_lt hlt)
    have hk : k < o.lexical.length := Nat.lt_of_add_lt_add_left hi
    obtain ⟨kind, hname, -⟩ := h.orderly.lexicalName k _ (List.getElem?_eq_getElem hk)
    obtain rfl := Option.some.inj (hx.symm.trans hname)
    refine ⟨_, ?_, rfl⟩
    rw [List.getElem?_append_right (Nat.le_add_right _ _), Nat.add_sub_cancel_left,
      List.getElem?_eq_getElem hk]

/-- The first symbol of a name is found, unless it stands for a character. -/
theorem findSymbol?_eq (h : Lowered ss g o d) {k : SymbolKind} (hs : o.IsName s)
    (hsymbol : g.symbols[s]? = some ⟨name, k⟩) (hk : ∀ cls, k ≠ .char cls)
    (hfirst : ∀ i e, (o.structural ++ o.lexical)[i]? = some e → i < s → e.1 ≠ name) :
    g.findSymbol? name = some s := by
  obtain ⟨hlt, hget⟩ := Array.getElem?_eq_some_iff.mp hsymbol
  rw [Grammar.findSymbol?, Array.findIdx?_eq_some_iff_getElem]
  refine ⟨hlt, ?_, fun j hj => ?_⟩
  · rw [hget]
    cases k with
    | char cls => exact absurd rfl (hk cls)
    | _ => simp
  · have hjlt : j < g.symbols.size := Nat.lt_trans hj hlt
    obtain ⟨e, he, hname⟩ :=
      h.name_eq (Array.getElem?_eq_some_iff.mpr ⟨hjlt, rfl⟩) (Nat.lt_trans hj hs)
    have hne := hfirst j e he hj
    rw [← hname] at hne
    simp [hne]

/-- A name with structural rules is found in the grammar. -/
theorem findSymbol?_of_structuralId? (h : Lowered ss g o d) (hs : o.structuralId? name = some s) :
    g.findSymbol? name = some s := by
  obtain ⟨offset, hentry⟩ := Outline.structuralId?_eq_some hs
  have hsymbol := h.orderly.structuralName s _ hentry
  rw [← h.tables.1] at hsymbol
  refine h.findSymbol?_eq (Outline.isName_of_structuralId? hs) hsymbol (by simp)
    fun i e he hi => ?_
  rw [Outline.structuralId?, List.findIdx?_eq_some_iff_getElem] at hs
  obtain ⟨hlt, -, hfirst⟩ := hs
  rw [List.getElem?_append_left (Nat.lt_trans hi hlt)] at he
  obtain ⟨hi', rfl⟩ := List.getElem?_eq_some_iff.mp he
  simpa using hfirst i hi

/-- A name with lexical rules is found in the grammar. -/
theorem findSymbol?_of_lexicalId? (h : Lowered ss g o d) (hs : o.lexicalId? name = some s) :
    g.findSymbol? name = some s := by
  obtain ⟨i, offset, hentry, rfl⟩ := Outline.lexicalId?_eq_some hs
  obtain ⟨k, hsymbol, hkind⟩ := h.orderly.lexicalName i _ hentry
  rw [← h.tables.1] at hsymbol
  refine h.findSymbol?_eq (Outline.isName_of_lexicalId? hs) hsymbol ?_ fun j e he hj => ?_
  · rcases hkind with rfl | rfl <;> simp
  by_cases hlt : j < o.structural.length
  · -- No name has structural rules and lexical ones.
    have hnone := Outline.structuralId?_eq_none h.outline hs
    rw [List.getElem?_append_left hlt] at he
    rw [Outline.structuralId?, List.findIdx?_eq_none_iff] at hnone
    simpa using hnone e (List.mem_of_getElem? he)
  · obtain ⟨j, rfl⟩ := Nat.exists_eq_add_of_le (Nat.le_of_not_lt hlt)
    rw [List.getElem?_append_right (Nat.le_add_right _ _), Nat.add_sub_cancel_left] at he
    rw [Outline.lexicalId?, Option.map_eq_some_iff] at hs
    obtain ⟨i', hi', heq⟩ := hs
    obtain rfl : i' = i := Nat.add_left_cancel heq
    rw [List.findIdx?_eq_some_iff_getElem] at hi'
    obtain ⟨hlt', -, hfirst⟩ := hi'
    obtain ⟨hj', rfl⟩ := List.getElem?_eq_some_iff.mp he
    simpa using hfirst j (Nat.lt_of_add_lt_add_left hj)

end Lowered

end Scannerless
