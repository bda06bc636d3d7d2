import Scannerless.Proofs.Digraph.Searches
import Scannerless.Proofs.Grammar.Changes
import Scannerless.Proofs.Grammar.Checks

/-!
# Cycles of lexical rules

The rules of a lexical name refer to the names on their right sides, quantified or not. While
statements are read, all these references are noted and no others, so that the graph that is
searched for a cycle is that of the references between the names.

## Main definitions

- `RefersTo` — a rule of a lexical name has another name on its right side.
- `Statement.references` — the references of a statement, by symbols.
- `Drafting.Notes` — the references that a step notes.

## Main statements

- `Drafting.statements_notes` — the references that are noted are those of the statements.
- `Drafted.transGen_references_iff` — a symbol reaches itself exactly if a name does.
- `lexicalCycle_exact` — the search for cycles, and the definitions that are refused for one.
-/

namespace Scannerless

/-- A rule of a lexical name has another name on its right side, with a quantifier or without. -/
def RefersTo (ss : List Statement) (name name' : String) : Prop :=
  ∃ alt ∈ lexicalAlternatives ss name, ∃ item ∈ alt.rhs,
    Element.decode item.element = .ok (.name name')

/-! ### The references of statements -/

/-- The references of an item in a rule of a symbol: to the symbol of the item if that is a name. -/
def RhsItem.references (o : Outline) (lhs : SymbolId) (item : RhsItem) :
    List (SymbolId × SymbolId) :=
  match Element.decode item.element with
  | .ok (.name name) => (o.lexicalId? name).toList.map fun s => (lhs, s)
  | _ => []

def Alternative.references (o : Outline) (lhs : SymbolId) (alt : Alternative) :
    List (SymbolId × SymbolId) :=
  alt.rhs.flatMap (RhsItem.references o lhs)

/-- The references of the alternatives of a lexical statement. -/
def Statement.references (o : Outline) : Statement → List (SymbolId × SymbolId)
  | .lexical lhs alternatives _ =>
    match Element.decode lhs with
    | .ok (.name name) =>
      (o.lexicalId? name).toList.flatMap fun s => alternatives.flatMap (Alternative.references o s)
    | _ => []
  | _ => []

section

variable {o : Outline} {lhs a b : SymbolId} {e : SymbolId × SymbolId}

theorem RhsItem.mem_references_iff {item : RhsItem} :
    e ∈ item.references o lhs ↔ ∃ name s, Element.decode item.element = .ok (.name name) ∧
      o.lexicalId? name = some s ∧ e = (lhs, s) := by
  rw [references]
  split
  next name hname => simp [hname, eq_comm]
  next hother =>
    constructor
    · intro h
      cases h
    · rintro ⟨name, -, hname, -⟩
      exact absurd hname (hother name)

theorem Statement.mem_references_iff {x : Statement} :
    (a, b) ∈ x.references o ↔ ∃ name name', o.lexicalId? name = some a ∧
      o.lexicalId? name' = some b ∧ ∃ alt ∈ x.lexicalAlternatives name, ∃ item ∈ alt.rhs,
        Element.decode item.element = .ok (.name name') := by
  constructor
  · intro h
    rw [references.eq_def] at h
    split at h
    next lhs alternatives offset =>
      split at h
      next name hname =>
        obtain ⟨s, hs, h⟩ := List.mem_flatMap.mp h
        obtain ⟨alt, halt, h⟩ := List.mem_flatMap.mp h
        obtain ⟨item, hitem, h⟩ := List.mem_flatMap.mp h
        obtain ⟨name', s', hname', hs', heq⟩ := RhsItem.mem_references_iff.mp h
        obtain ⟨rfl, rfl⟩ := Prod.mk.inj heq
        refine ⟨name, name', Option.mem_toList.mp hs, hs', alt, ?_, item, hitem, hname'⟩
        simpa only [lexicalAlternatives, hname, if_true] using halt
      next => cases h
    next => cases h
  · rintro ⟨name, name', ha, hb, alt, halt, item, hitem, hname'⟩
    cases x with
    | lexical lhs alternatives offset =>
      simp only [lexicalAlternatives] at halt
      split at halt
      next defined hdefined =>
        split at halt
        next heq =>
          subst heq
          simp only [references, hdefined, ha, Option.toList_some, List.flatMap_singleton]
          refine List.mem_flatMap.mpr ⟨alt, halt, List.mem_flatMap.mpr ⟨item, hitem, ?_⟩⟩
          exact RhsItem.mem_references_iff.mpr ⟨name', b, hname', hb, rfl⟩
        next => cases halt
      next => cases halt
    | _ => cases halt

end

/-! ### References that are noted -/

namespace Drafting

variable {o : Outline} {α β : Type} {refs refs' : List (SymbolId × SymbolId)}

/-- A step notes some references behind those that were noted before. -/
def Notes (m : Drafting α) (refs : List (SymbolId × SymbolId)) : Prop :=
  ∀ d a d', m.run d = .ok (a, d') → d'.references = d.references ++ refs

/-- Elementary changes of other kinds note nothing. -/
theorem Changes.notes {m : Drafting α} (hm : m.Changes False) : m.Notes [] := by
  intro d a d' h
  rw [List.append_nil]
  refine hm.invariant (P := fun e => e.references = d.references) (fun e e' hchange he => ?_) h rfl
  cases hchange with
  | referred h => exact h.elim
  | rule level r => cases level <;> exact he
  | _ => exact he

theorem Notes.bind {m : Drafting α} {f : α → Drafting β} (hm : m.Notes refs)
    (hf : ∀ a, (f a).Notes refs') : (m >>= f).Notes (refs ++ refs') := by
  intro d b d' h
  obtain ⟨a, e, hrun, hrun'⟩ := run_bind.mp h
  rw [hf a e b d' hrun', hm d a e hrun, List.append_assoc]

theorem Notes.bind_nil {m : Drafting α} {f : α → Drafting β} (hm : m.Notes refs)
    (hf : ∀ a, (f a).Notes []) : (m >>= f).Notes refs := by
  have h := hm.bind hf
  rwa [List.append_nil] at h

theorem forM_notes {xs : List β} {f : β → Drafting Unit}
    {g : β → List (SymbolId × SymbolId)} (hf : ∀ x, (f x).Notes (g x)) :
    (xs.forM f).Notes (xs.flatMap g) := by
  induction xs with
  | nil => exact (pure_changes ()).notes
  | cons x xs ih =>
    have hboth : (f x >>= fun _ => xs.forM f).Notes (g x ++ xs.flatMap g) :=
      (hf x).bind fun _ => ih
    exact hboth

theorem mapM_notes {xs : List β} {f : β → Drafting α} {g : β → List (SymbolId × SymbolId)}
    (hf : ∀ x, (f x).Notes (g x)) : (xs.mapM f).Notes (xs.flatMap g) := by
  induction xs with
  | nil =>
    rw [List.mapM_nil]
    exact (pure_changes _).notes
  | cons x xs ih =>
    rw [List.mapM_cons, List.flatMap_cons]
    exact (hf x).bind fun a => ih.bind_nil fun as => (pure_changes _).notes

theorem lexicalBody_notes (lhs : SymbolId) (item : RhsItem) :
    (lexicalBody o lhs item).Notes (item.references o lhs) := by
  intro d body d' h
  obtain ⟨e, d₁, he, h⟩ := run_bind.mp h
  obtain ⟨hdecode, rfl⟩ := run_lift.mp he
  replace he := Element.decodeAt_eq_ok.mp hdecode
  rw [RhsItem.references, he]
  cases e with
  | terminal t => exact (characterSymbols_changes t item.offset).notes _ _ _ h
  | name name =>
    simp only at h ⊢
    split at h
    · exact absurd h run_refuse
    · split at h
      · exact absurd h run_refuse
      next id hid =>
        obtain ⟨_, d₂, hmodify, h⟩ := run_bind.mp h
        obtain rfl := run_modify.mp hmodify
        obtain ⟨rfl, rfl⟩ := run_pure.mp h
        rw [hid]
        rfl

theorem lexicalItem_notes (lhs : SymbolId) (name : String) (item : RhsItem) :
    (lexicalItem o lhs name item).Notes (item.references o lhs) := by
  rw [lexicalItem]
  refine (lexicalBody_notes lhs item).bind_nil fun body => Changes.notes ?_
  split
  · exact pure_changes body
  · exact (quantified_changes _ _ _ _).bind fun s => pure_changes _

theorem lexicalAlternative_notes (lhs : SymbolId) (name : String) (alt : Alternative) :
    (lexicalAlternative o lhs name alt).Notes (alt.references o lhs) := by
  rw [lexicalAlternative]
  split
  · exact fun _ _ _ h => absurd h run_refuse
  · exact (mapM_notes fun item => lexicalItem_notes lhs name item).bind_nil fun parts =>
      (addDeclared_changes _ _ _ _ _ _ _).notes

theorem lexicalStatement_notes (x : Statement) :
    (lexicalStatement o x).Notes (x.references o) := by
  cases x with
  | lexical lhs alternatives offset =>
    intro d u d' h
    obtain ⟨name, d₁, hdecode, h⟩ := run_bind.mp h
    obtain ⟨hname, rfl⟩ := run_lift.mp hdecode
    rw [Element.decodeNameAt_eq_ok] at hname
    simp only [Statement.references, hname]
    split at h
    next hnone =>
      rw [hnone]
      exact (pure_changes ()).notes _ _ _ h
    next s hs =>
      rw [hs, Option.toList_some, List.flatMap_singleton]
      exact forM_notes (fun alt => lexicalAlternative_notes s name alt) _ _ _ h
  | _ => exact (pure_changes ()).notes

/-- The references that are noted are those of the lexical statements. -/
theorem statements_notes (o : Outline) (ss : List Statement) :
    (statements o ss).Notes (ss.flatMap (Statement.references o)) := by
  rw [statements_eq]
  exact (forM_changes discardStatement_changes).notes.bind fun _ =>
    (forM_changes structuralStatement_changes).notes.bind fun _ =>
      forM_notes lexicalStatement_notes

end Drafting

/-! ### The graph that is searched -/

namespace Drafted

variable {ss : List Statement} {g : Grammar} {o : Outline} {d : Draft} {name name' : String}
  {a b s : SymbolId}

theorem name_of_lexicalId? (h : Drafted ss g o d) (hs : o.lexicalId? name = some s) :
    d.name s = name := by
  obtain ⟨i, offset, hentry, rfl⟩ := Outline.lexicalId?_eq_some hs
  obtain ⟨k, hsymbol, -⟩ := h.orderly.lexicalName i _ hentry
  rw [Draft.name, hsymbol]

/-- The references of a symbol are those of its name. -/
theorem mem_referencesOf_iff (h : Drafted ss g o d) :
    b ∈ d.referencesOf a ↔ ∃ name name', o.lexicalId? name = some a ∧
      o.lexicalId? name' = some b ∧ RefersTo ss name name' := by
  have hnoted : d.references = ss.flatMap (Statement.references o) :=
    Drafting.statements_notes o ss _ _ _ h.draft
  have hmem : b ∈ d.referencesOf a ↔ (a, b) ∈ d.references := by
    simp [Draft.referencesOf]
  simp only [hmem, hnoted, List.mem_flatMap, Statement.mem_references_iff, RefersTo,
    lexicalAlternatives]
  constructor
  · rintro ⟨x, hx, name, name', ha, hb, alt, halt, hitem⟩
    exact ⟨name, name', ha, hb, alt, ⟨x, hx, halt⟩, hitem⟩
  · rintro ⟨name, name', ha, hb, alt, ⟨x, hx, halt⟩, hitem⟩
    exact ⟨x, hx, name, name', ha, hb, alt, halt, hitem⟩

/-- What refers to a name has lexical rules, and so has the name. -/
theorem exists_lexicalId? (h : Drafted ss g o d) (href : RefersTo ss name name') :
    ∃ a b, o.lexicalId? name = some a ∧ o.lexicalId? name' = some b := by
  obtain ⟨alt, halt, item, hitem, hname'⟩ := href
  obtain ⟨x, hx, hxalt⟩ := List.mem_flatMap.mp halt
  obtain ⟨a, ha⟩ : ∃ a, o.lexicalId? name = some a := by
    rw [← Outline.isLexical_iff, (Outline.lists_of_ofStatements h.outline).lexical]
    exact ⟨x, hx, Statement.lexicalName?_of_mem hxalt⟩
  -- The name stands in a rule of the draft.
  obtain ⟨r, -, parts, hparts, -⟩ := exists_mem_of_forall₂ (h.lexical ha) halt
  obtain ⟨body, -, hpart⟩ := exists_mem_of_forall₂ hparts hitem
  obtain ⟨body', e, he, hbody⟩ : ∃ body', d.BodyFor o item.element body' := by
    cases hpart with
    | one _ hbody => exact ⟨_, hbody⟩
    | repeated _ hbody => exact ⟨_, hbody⟩
  obtain rfl := Except.ok.inj (he.symm.trans hname')
  cases hbody with
  | name hb => exact ⟨a, _, ha, hb⟩

theorem refersTo_of_mem (h : Drafted ss g o d) (hb : b ∈ d.referencesOf a) :
    RefersTo ss (d.name a) (d.name b) := by
  obtain ⟨name, name', hname, hname', href⟩ := h.mem_referencesOf_iff.mp hb
  rwa [h.name_of_lexicalId? hname, h.name_of_lexicalId? hname']

/-- A symbol reaches itself through references exactly if a name does. -/
theorem transGen_references_iff (h : Drafted ss g o d) :
    (∃ s, Relation.TransGen (fun a b => b ∈ d.referencesOf a) s s) ↔
      ∃ name, Relation.TransGen (RefersTo ss) name name := by
  constructor
  · rintro ⟨s, hs⟩
    exact ⟨d.name s, hs.lift d.name fun _ _ => h.refersTo_of_mem⟩
  · rintro ⟨name, hname⟩
    let symbolOf (name : String) : SymbolId := (o.lexicalId? name).getD 0
    have hstep (name name' : String) (href : RefersTo ss name name') :
        symbolOf name' ∈ d.referencesOf (symbolOf name) := by
      obtain ⟨a, b, ha, hb⟩ := h.exists_lexicalId? href
      have hsymbols : symbolOf name = a ∧ symbolOf name' = b := by simp [symbolOf, ha, hb]
      rw [hsymbols.1, hsymbols.2]
      exact h.mem_referencesOf_iff.mpr ⟨name, name', ha, hb, href⟩
    exact ⟨symbolOf name, hname.lift symbolOf hstep⟩

/-- No symbol behind those of a draft refers to one. -/
theorem referencesOf_of_le (h : Drafted ss g o d) (hs : d.symbols.size ≤ s) :
    d.referencesOf s = [] := by
  refine List.eq_nil_iff_forall_not_mem.mpr fun b hb => ?_
  obtain ⟨name, -, ha, -⟩ := h.mem_referencesOf_iff.mp hb
  exact Nat.not_lt_of_le hs (h.orderly.lt_of_isName (Outline.isName_of_lexicalId? ha))

/-- What the check for cycles fails with names a chain of references from a name to itself. -/
theorem exists_chain_of_requireAcyclic (h : Drafted ss g o d) {fault : Fault}
    (hfault : d.requireAcyclic d.referencesOf .lexicalCycle = .error fault) :
    ∃ name between s, (name :: between ++ [name]).IsChain (RefersTo ss) ∧
      o.lexicalId? name = some s ∧
      fault = ⟨.lexicalCycle (name :: between ++ [name]), d.offset s⟩ := by
  obtain ⟨cycle, hcycle, rfl⟩ := Draft.requireAcyclic_eq_error_iff.mp hfault
  obtain ⟨s, between, rfl, hchain⟩ :=
    Digraph.isCycle_of_findCycle hcycle fun _ => h.referencesOf_of_le
  have hnames : ((s :: between ++ [s]).map d.name).IsChain (RefersTo ss) :=
    List.isChain_map_of_isChain d.name (fun _ _ => h.refersTo_of_mem) hchain
  obtain ⟨t, ht⟩ : ∃ t, t ∈ d.referencesOf s := by
    cases between with
    | nil => exact ⟨s, by simpa using hchain⟩
    | cons t between => exact ⟨t, (List.isChain_cons_cons.mp hchain).1⟩
  obtain ⟨name, -, hs, -⟩ := h.mem_referencesOf_iff.mp ht
  refine ⟨d.name s, between.map d.name, s, by simpa using hnames, ?_, by simp⟩
  rwa [h.name_of_lexicalId? hs]

end Drafted

namespace Prepared

variable {ss : List Statement} {o : Outline} {d : Draft} {start : SymbolId}

/-- Statements that come as far as the last checks are refused for a cycle of lexical rules
    exactly if the check for it fails. -/
theorem ofStatements_eq_lexicalCycle_iff (h : Prepared ss o d start) {description : String}
    {path : List String} {offset : Nat} :
    Grammar.ofStatements ss description = .error ⟨.lexicalCycle path, offset⟩ ↔
      d.requireAcyclic d.referencesOf .lexicalCycle = .error ⟨.lexicalCycle path, offset⟩ := by
  rw [h.ofStatements_eq]
  cases hcheck : d.requireAcyclic d.referencesOf .lexicalCycle with
  | error fault =>
    change (Except.error fault : Except Fault Grammar) = _ ↔ _
    rw [Except.error.injEq, Except.error.injEq]
  | ok u =>
    -- The checks that are left fail with other causes.
    refine ⟨fun herror => ?_, fun herror => by cases herror⟩
    cases hnonempty : d.requireNonempty d.lexicalTable with
    | error fault =>
      rw [hnonempty] at herror
      obtain rfl := Except.error.inj herror
      rw [Draft.requireNonempty] at hnonempty
      split at hnonempty <;> cases hnonempty
    | ok u =>
      rw [hnonempty] at herror
      cases hcycle : d.requireAcyclic (Draft.aloneFrom d.structuralTable) .ruleCycle with
      | error fault =>
        rw [hcycle] at herror
        obtain rfl := Except.error.inj herror
        obtain ⟨_, -, hfault⟩ := Draft.requireAcyclic_eq_error_iff.mp hcycle
        cases hfault
      | ok u =>
        rw [hcycle] at herror
        cases herror

end Prepared

/-- **Cycles of lexical rules.** The search through a graph that is given by lists of successors
    comes to an end, however deep it goes. It finds nothing exactly if the graph has no cycle, and
    otherwise edges one behind the other from a node back to it. So lexical rules are refused
    exactly if a name reaches itself through references, quantified or not. The fault then names
    a chain of references from a name to itself, and it is the outcome for statements that come
    as far as this check. -/
theorem lexicalCycle_exact (adjacency : Array (List Nat)) {ss : List Statement} {o : Outline}
    {d : Draft} (ho : Outline.ofStatements ss = .ok o)
    (hd : (Drafting.statements o ss).run (.ofOutline o) = .ok ((), d)) :
    ((∃ r, (∀ r', Digraph.Follows (Digraph.successors adjacency) (List.range adjacency.size)
            ⟨Array.replicate adjacency.size .new, []⟩ r' ↔ r' = r) ∧
          ∀ cycle, Digraph.findCycle (Digraph.successors adjacency) adjacency.size = some cycle ↔
            r = .error cycle) ∧
        (Digraph.findCycle (Digraph.successors adjacency) adjacency.size = none ↔
          ∀ n, ¬Relation.TransGen (fun a b => b ∈ Digraph.successors adjacency a) n n) ∧
        ∀ cycle, Digraph.findCycle (Digraph.successors adjacency) adjacency.size = some cycle →
          2 ≤ cycle.length ∧ cycle.head? = cycle.getLast? ∧
            cycle.IsChain fun a b => b ∈ Digraph.successors adjacency a) ∧
      ((∃ fault, d.requireAcyclic d.referencesOf .lexicalCycle = .error fault) ↔
        ∃ name, Relation.TransGen (RefersTo ss) name name) ∧
      (∀ fault, d.requireAcyclic d.referencesOf .lexicalCycle = .error fault →
        ∃ name between s, (name :: between ++ [name]).IsChain (RefersTo ss) ∧
          o.lexicalId? name = some s ∧
          fault = ⟨.lexicalCycle (name :: between ++ [name]), d.offset s⟩) ∧
      ∀ start description, Prepared ss o d start →
        ((∃ path offset, Grammar.ofStatements ss description =
            .error ⟨.lexicalCycle path, offset⟩) ↔
          ∃ name, Relation.TransGen (RefersTo ss) name name) := by
  have h : Drafted ss (d.grammar o 0 "") o d := ⟨ho, hd, rfl, rfl, rfl, rfl⟩
  have hcheck : (∃ fault, d.requireAcyclic d.referencesOf .lexicalCycle = .error fault) ↔
      ∃ name, Relation.TransGen (RefersTo ss) name name := by
    rw [← h.transGen_references_iff, ← Draft.exists_requireAcyclic_error_iff
      fun _ => h.referencesOf_of_le]
  refine ⟨Digraph.findCycle_successors adjacency, hcheck, fun fault hfault =>
    h.exists_chain_of_requireAcyclic hfault, fun start description hprepared => ?_⟩
  rw [← hcheck]
  simp only [hprepared.ofStatements_eq_lexicalCycle_iff]
  constructor
  · rintro ⟨path, offset, herror⟩
    exact ⟨_, herror⟩
  · rintro ⟨fault, hfault⟩
    obtain ⟨name, between, s, -, -, rfl⟩ := h.exists_chain_of_requireAcyclic hfault
    exact ⟨_, _, hfault⟩

/-- Pairs of brackets around any number of lists, each of which is such a pair. -/
def Definition.brackets : Definition :=
  ⟨[.rule "text" ["list"], .lexeme "list" ["'['", "item*", "']'"],
    .lexeme "item" ["[a-z]"], .lexeme "item" ["list"]], "brackets"⟩

/-- Lists are lexical rules that refer to themselves, by way of a quantified item. A graph with
    a node that leads nowhere has a cycle behind it. -/
theorem lexicalCycle_exact_brackets :
    (∃ o d, Outline.ofStatements Definition.brackets.statements = .ok o ∧
      (Drafting.statements o Definition.brackets.statements).run (.ofOutline o) = .ok ((), d) ∧
      ∃ fault, d.requireAcyclic d.referencesOf .lexicalCycle = .error fault) ∧
    (∃ name, Relation.TransGen (RefersTo Definition.brackets.statements) name name) ∧
    Grammar.ofStatements Definition.brackets.statements "brackets" =
      .error ⟨.lexicalCycle ["list", "item", "list"], 0⟩ ∧
    Digraph.findCycle (Digraph.successors #[[1, 2], [], [3], [2]]) 4 = some [2, 3, 2] ∧
    [2, 3, 2].IsChain fun a b => b ∈ Digraph.successors #[[1, 2], [], [3], [2]] a := by
  have hrun : (prepare Definition.brackets.statements).toOption.any (fun _ => true) = true := by
    decide +kernel
  have herror : errorOf? (Grammar.ofStatements Definition.brackets.statements "brackets") =
      some ⟨.lexicalCycle ["list", "item", "list"], 0⟩ := by
    decide +kernel
  have hfound : Digraph.findCycle (Digraph.successors #[[1, 2], [], [3], [2]]) 4 =
      some [2, 3, 2] := by
    decide
  obtain ⟨⟨o, d, start⟩, hprepare, -⟩ := exists_eq_ok_of_any hrun
  have h := Prepared.of_prepare hprepare
  have hfault := eq_error_of_errorOf? herror
  obtain ⟨⟨-, -, hcycle⟩, hcheck, -, hrefused⟩ :=
    lexicalCycle_exact #[[1, 2], [], [3], [2]] h.outline h.draft
  have hname := (hrefused start "brackets" h).mp ⟨_, _, hfault⟩
  exact ⟨⟨o, d, h.outline, h.draft, hcheck.mpr hname⟩, hname, hfault, hfound,
    (hcycle _ hfound).2.2⟩

end Scannerless
