import Scannerless.Proofs.Grammar.Checks
import Scannerless.Proofs.Grammar.Yields

/-!
# Cycles of rules

A symbol may be derived from itself alone. Then a chain of rules leads from the symbol back
to it, each of which has the next symbol of the chain on its right side among symbols that
derive nothing. Such chains are the cycles of the graph that a definition is searched for, so
that it is refused for a cycle of rules exactly if there is such a derivation.

## Main definitions

- `RuleTable.ConsistsOf` — a rule of a symbol is all another symbol if the rest of it is empty.

## Main statements

- `RuleTable.transGen_rewrites_iff` — derivations of a symbol from another one are chains.
- `Prepared.mem_aloneFrom_iff` — the edges that are searched.
- `ruleCycle_exact` — a definition with no other fault is refused for a cycle of rules exactly
  if a symbol derives itself.
-/

namespace Scannerless

namespace RuleTable

variable {t : RuleTable} {a b s : SymbolId} {u v : List SymbolId}

/-- A rule of a symbol has another one on its right side, where all others derive nothing. -/
def ConsistsOf (t : RuleTable) (a b : SymbolId) : Prop :=
  ∃ id front back, t.lhs? id = some a ∧ t.rhs id = front ++ b :: back ∧
    ∀ s ∈ front ++ back, t.Derives [s] []

theorem ConsistsOf.transGen (h : t.ConsistsOf a b) : Relation.TransGen t.Rewrites [a] [b] := by
  obtain ⟨id, front, back, hlhs, hrhs, hempty⟩ := h
  have hstep : t.Rewrites [a] (t.rhs id) := by
    simpa using Rewrites.expand [] [] hlhs
  refine .head' hstep ?_
  rw [hrhs]
  have hfront : t.Derives front [] :=
    derives_nil_of_forall fun s hs => hempty s (List.mem_append_left _ hs)
  have hback : t.Derives (b :: back) ([b] ++ []) :=
    Derives.append (u := [b]) .refl
      (derives_nil_of_forall fun s hs => hempty s (List.mem_append_right _ hs))
  have hboth := hfront.append hback
  rwa [List.nil_append, List.append_nil] at hboth

/-- An element of a list is in the front of it or in the back. -/
theorem eq_or_eq_of_append_eq {α : Type} {l r front back : List α} {x : α}
    (h : l ++ r = front ++ x :: back) :
    (∃ mid, l = front ++ x :: mid ∧ back = mid ++ r) ∨ ∃ mid, front = l ++ mid ∧
      r = mid ++ x :: back := by
  rcases List.append_eq_append_iff.mp h with ⟨mid, hfront, hr⟩ | ⟨mid, hl, hback⟩
  · exact Or.inr ⟨mid, hfront, hr⟩
  · cases mid with
    | nil => exact Or.inr ⟨[], by simpa using hl.symm, by simpa using hback.symm⟩
    | cons y mid =>
      obtain ⟨rfl, rfl⟩ := List.cons.inj hback
      exact Or.inl ⟨mid, hl, rfl⟩

/-- A list that derives a single symbol has one that consists of it in the end, and all others
    derive nothing. The induction is on the steps, from the last to the first. -/
theorem Derives.exists_reflTransGen (h : t.Derives u [b]) :
    ∃ front x back, u = front ++ x :: back ∧ Relation.ReflTransGen t.ConsistsOf x b ∧
      ∀ s ∈ front ++ back, t.Derives [s] [] := by
  induction h using Relation.ReflTransGen.head_induction_on with
  | refl => exact ⟨[], b, [], rfl, .refl, by simp⟩
  | head hstep _ ih =>
    obtain @⟨id, s, before, after, hs⟩ := hstep
    obtain ⟨front, x, back, hsplit, hchain, hempty⟩ := ih
    have hfront := fun y (hy : y ∈ front) => hempty y (List.mem_append_left _ hy)
    have hback := fun y (hy : y ∈ back) => hempty y (List.mem_append_right _ hy)
    -- The rewritten symbol derives nothing if its right side does.
    have hnothing (h : ∀ y ∈ t.rhs id, t.Derives [y] []) : t.Derives [s] [] :=
      .of_rhs hs (derives_nil_of_forall h)
    rcases eq_or_eq_of_append_eq hsplit with ⟨mid, hleft, rfl⟩ | ⟨mid, rfl, rfl⟩
    · rcases eq_or_eq_of_append_eq hleft with ⟨mid', rfl, rfl⟩ | ⟨mid', rfl, hrhs⟩
      · -- The symbol stands in front of the right side.
        refine ⟨front, x, mid' ++ s :: after, by simp, hchain, fun y hy => ?_⟩
        simp only [List.mem_append, List.mem_cons] at hy hback
        rcases hy with hy | hy | rfl | hy
        · exact hfront y hy
        · exact hback y (Or.inl (Or.inl hy))
        · exact hnothing fun z hz => hback z (Or.inl (Or.inr hz))
        · exact hback y (Or.inr hy)
      · -- The symbol stands in the right side, so that the rewritten one consists of it.
        simp only [List.mem_append] at hfront hback
        have hconsists : t.ConsistsOf s x := by
          refine ⟨id, mid', mid, hs, hrhs, fun y hy => ?_⟩
          rcases List.mem_append.mp hy with hy | hy
          · exact hfront y (Or.inr hy)
          · exact hback y (Or.inl hy)
        refine ⟨before, s, after, rfl, .head hconsists hchain, fun y hy => ?_⟩
        rcases List.mem_append.mp hy with hy | hy
        · exact hfront y (Or.inl hy)
        · exact hback y (Or.inr hy)
    · -- The symbol stands behind the right side.
      refine ⟨before ++ s :: mid, x, back, by simp, hchain, fun y hy => ?_⟩
      simp only [List.mem_append, List.mem_cons] at hy hfront
      rcases hy with (hy | rfl | hy) | hy
      · exact hfront y (Or.inl (Or.inl hy))
      · exact hnothing fun z hz => hfront z (Or.inl (Or.inr hz))
      · exact hfront y (Or.inr hy)
      · exact hback y hy

/-- Derivations of a symbol from another one are chains of symbols that consist of the next. -/
theorem transGen_rewrites_iff :
    Relation.TransGen t.Rewrites [a] [b] ↔ Relation.TransGen t.ConsistsOf a b := by
  constructor
  · intro h
    obtain ⟨v, hstep, hrest⟩ := Relation.TransGen.head'_iff.mp h
    obtain ⟨id, hlhs, rfl⟩ := hstep.of_singleton
    obtain ⟨front, x, back, hrhs, hchain, hempty⟩ := Derives.exists_reflTransGen hrest
    exact .head' ⟨id, front, back, hlhs, hrhs, hempty⟩ hchain
  · intro h
    induction h with
    | single h => exact h.transGen
    | tail _ h ih => exact ih.trans h.transGen

/-- Every symbol of a chain that leads to one with rules has rules itself. -/
theorem transGen_hasRules (hi : t.Indexed) (h : Relation.TransGen t.ConsistsOf a b)
    (hb : t.hasRules b = true) :
    Relation.TransGen (fun a b => t.ConsistsOf a b ∧ t.hasRules b = true) a b := by
  induction h using Relation.TransGen.head_induction_on with
  | single h => exact .single ⟨h, hb⟩
  | head h hrest ih =>
    obtain ⟨c, ⟨id, front, back, hlhs, -⟩, -⟩ := Relation.TransGen.head'_iff.mp hrest
    exact .head ⟨h, hi.hasRules_of_lhs hlhs⟩ ih

end RuleTable

/-! ### The graph that is searched -/

namespace Draft

variable {t : RuleTable} {a b s : SymbolId} {before ss : List SymbolId}

/-- What stands alone in a right side: a symbol with rules, among others that are empty. -/
theorem mem_aloneIn_iff :
    b ∈ aloneIn t before ss ↔ ∃ front back, ss = front ++ b :: back ∧ t.hasRules b = true ∧
      (∀ x ∈ before ++ front, t.isNullable x = true) ∧ ∀ x ∈ back, t.isNullable x = true := by
  constructor
  · induction ss generalizing before with
    | nil =>
      intro h
      cases h
    | cons s after ih =>
      have hlater (h : b ∈ aloneIn t (before ++ [s]) after) :
          ∃ front back, s :: after = front ++ b :: back ∧ t.hasRules b = true ∧
            (∀ x ∈ before ++ front, t.isNullable x = true) ∧
            ∀ x ∈ back, t.isNullable x = true := by
        obtain ⟨front, back, rfl, hrules, hfront, hback⟩ := ih h
        exact ⟨s :: front, back, rfl, hrules, by simpa using hfront, hback⟩
      intro h
      rw [aloneIn] at h
      split at h
      next halone =>
        rcases List.mem_cons.mp h with rfl | h
        · simp only [Bool.and_eq_true, List.all_eq_true] at halone
          exact ⟨[], after, rfl, halone.1.1, by simpa using halone.1.2, halone.2⟩
        · exact hlater h
      next => exact hlater h
  · rintro ⟨front, back, rfl, hrules, hfront, hback⟩
    exact Grammar.mem_aloneIn hrules hfront hback

/-- The edges that are searched lead from symbols to those with rules that they consist of. -/
theorem mem_aloneFrom_iff (hi : t.Indexed)
    (hnullable : ∀ s, t.isNullable s = true ↔ t.Derives [s] []) :
    b ∈ aloneFrom t a ↔ t.ConsistsOf a b ∧ t.hasRules b = true := by
  simp only [aloneFrom, List.mem_flatMap, hi a, mem_aloneIn_iff, List.nil_append, hnullable]
  constructor
  · rintro ⟨id, hlhs, front, back, hrhs, hrules, hfront, hback⟩
    refine ⟨⟨id, front, back, hlhs, hrhs, fun s hs => ?_⟩, hrules⟩
    exact (List.mem_append.mp hs).elim (hfront s) (hback s)
  · rintro ⟨⟨id, front, back, hlhs, hrhs, hempty⟩, hrules⟩
    exact ⟨id, hlhs, front, back, hrhs, hrules, fun s hs => hempty s (List.mem_append_left _ hs),
      fun s hs => hempty s (List.mem_append_right _ hs)⟩

end Draft

namespace Prepared

variable {ss : List Statement} {o : Outline} {d : Draft} {start s : SymbolId}

theorem structural_lt (h : Prepared ss o d start) :
    ∀ r ∈ d.structural.toList, r.lhs < d.symbols.size := by
  obtain ⟨p, rfl, hp⟩ := (h.drafted "").exists_plan
  exact fun r hr => Draft.lt_of_kind? (hp.structural r hr).1

theorem mem_aloneFrom_iff (h : Prepared ss o d start) {a b : SymbolId} :
    b ∈ Draft.aloneFrom d.structuralTable a ↔
      d.structuralTable.ConsistsOf a b ∧ d.structuralTable.hasRules b = true :=
  Draft.mem_aloneFrom_iff (RuleTable.indexed_ofRules h.structural_lt)
    (RuleTable.isNullable_ofRules_iff h.structural_lt)

/-- A symbol derives itself exactly if the graph has a cycle through it. -/
theorem transGen_iff (h : Prepared ss o d start) :
    Relation.TransGen d.structuralTable.Rewrites [s] [s] ↔
      Relation.TransGen (fun a b => b ∈ Draft.aloneFrom d.structuralTable a) s s := by
  rw [RuleTable.transGen_rewrites_iff]
  have hi : d.structuralTable.Indexed := RuleTable.indexed_ofRules h.structural_lt
  constructor
  · intro hcycle
    obtain ⟨c, ⟨id, front, back, hlhs, -⟩, -⟩ := Relation.TransGen.head'_iff.mp hcycle
    exact Relation.TransGen.mono (fun a b hab => h.mem_aloneFrom_iff.mpr hab) _ _
      (RuleTable.transGen_hasRules hi hcycle (hi.hasRules_of_lhs hlhs))
  · exact Relation.TransGen.mono (fun a b hab => (h.mem_aloneFrom_iff.mp hab).1) _ _

/-- If all other checks find nothing, the statements are refused for a chain of symbols that
    consist of the next, or accepted as no symbol derives itself. -/
theorem ofStatements_cases (h : Prepared ss o d start) (description : String)
    (hlexical : d.requireAcyclic d.referencesOf .lexicalCycle = .ok ())
    (hnonempty : d.requireNonempty d.lexicalTable = .ok ()) :
    (∃ s between, (s :: between ++ [s]).IsChain d.structuralTable.ConsistsOf ∧
      Grammar.ofStatements ss description =
        .error ⟨.ruleCycle ((s :: between ++ [s]).map d.name), d.offset s⟩) ∨
    (∀ s, ¬Relation.TransGen d.structuralTable.Rewrites [s] [s]) ∧
      Grammar.ofStatements ss description = .ok (d.grammar o start description) := by
  have hedges : ∀ n, d.symbols.size ≤ n → Draft.aloneFrom d.structuralTable n = [] :=
    fun n hn => Draft.aloneFrom_of_le hn
  have heq : Grammar.ofStatements ss description = do
      d.requireAcyclic (Draft.aloneFrom d.structuralTable) .ruleCycle
      return d.grammar o start description := by
    rw [h.ofStatements_eq, hlexical, hnonempty]
    rfl
  cases hcycle : Digraph.findCycle (Draft.aloneFrom d.structuralTable) d.symbols.size with
  | none =>
    refine Or.inr ⟨fun s hs => ?_, ?_⟩
    · exact (Digraph.findCycle_eq_none_iff hedges).mp hcycle s (h.transGen_iff.mp hs)
    · rw [heq, Draft.requireAcyclic_eq_ok_iff.mpr hcycle]
      rfl
  | some cycle =>
    obtain ⟨s, between, rfl, hchain⟩ := Digraph.isCycle_of_findCycle hcycle hedges
    refine Or.inl ⟨s, between, hchain.imp fun a b hab => (h.mem_aloneFrom_iff.mp hab).1, ?_⟩
    rw [heq, Draft.requireAcyclic_eq_error_iff.mpr ⟨_, hcycle, rfl⟩]
    rfl

end Prepared

/-- A definition that passes all other checks is refused for a cycle of rules exactly if some
    symbol of the structural rules derives itself in one step or more. The message then names
    the symbols of a chain from a symbol back to it, each of which has a rule with the next one
    on its right side among symbols that derive nothing. -/
theorem ruleCycle_exact {c : Definition} {o : Outline} {d : Draft} {start : SymbolId}
    (h : Prepared c.statements o d start)
    (hlexical : d.requireAcyclic d.referencesOf .lexicalCycle = .ok ())
    (hnonempty : d.requireNonempty d.lexicalTable = .ok ()) :
    ((∃ path offset, c.compile = .error (.ofFault c.description ⟨.ruleCycle path, offset⟩)) ↔
      ∃ s, Relation.TransGen d.structuralTable.Rewrites [s] [s]) ∧
    ∀ e, c.compile = .error e → ∃ s between,
      (s :: between ++ [s]).IsChain d.structuralTable.ConsistsOf ∧
      e = .ofFault c.description ⟨.ruleCycle ((s :: between ++ [s]).map d.name), d.offset s⟩ := by
  simp only [Definition.compile_eq_error_iff]
  rcases h.ofStatements_cases c.description hlexical hnonempty with
    ⟨s, between, hchain, herror⟩ | ⟨hnone, hok⟩
  · refine ⟨⟨fun _ => ⟨s, ?_⟩, fun _ => ⟨_, _, _, herror, rfl⟩⟩, ?_⟩
    · exact RuleTable.transGen_rewrites_iff.mpr (Digraph.transGen_of_isChain hchain)
    · rintro e ⟨fault, hfault, rfl⟩
      obtain rfl := Except.error.inj (herror.symm.trans hfault)
      exact ⟨s, between, hchain, rfl⟩
  · -- The statements are accepted, so that there is no error.
    refine ⟨⟨?_, ?_⟩, ?_⟩
    · rintro ⟨path, offset, fault, hfault, -⟩
      cases hok.symm.trans hfault
    · rintro ⟨s, hs⟩
      exact absurd hs (hnone s)
    · rintro e ⟨fault, hfault, -⟩
      cases hok.symm.trans hfault

/-- Items between blanks, of which there need not be any, and which may be lists again. -/
def Definition.nested : Definition :=
  ⟨[.rule "list" ["blank", "item"], .rule "item" ["list"], .rule "item" ["'a'"],
    .rule "blank" []], "nested"⟩

/-- A list may be its only item, and an item may be a list. -/
theorem ruleCycle_exact_nested :
    ∃ o d start, Prepared Definition.nested.statements o d start ∧
      d.requireAcyclic d.referencesOf .lexicalCycle = .ok () ∧
      d.requireNonempty d.lexicalTable = .ok () ∧
      (∃ s, Relation.TransGen d.structuralTable.Rewrites [s] [s]) ∧
      Definition.nested.compile =
        .error (.ofFault "nested" ⟨.ruleCycle ["list", "item", "list"], 0⟩) := by
  have hrun : (prepare Definition.nested.statements).toOption.any (fun (_, d, _) =>
      (d.requireAcyclic d.referencesOf .lexicalCycle).isOk &&
        (d.requireNonempty d.lexicalTable).isOk) = true := by
    decide +kernel
  have herror : Definition.nested.compile =
      .error (.ofFault "nested" ⟨.ruleCycle ["list", "item", "list"], 0⟩) := by
    apply eq_error_of_errorOf?
    decide +kernel
  obtain ⟨⟨o, d, start⟩, hprepare, hchecks⟩ := exists_eq_ok_of_any hrun
  have h := Prepared.of_prepare hprepare
  rw [Bool.and_eq_true] at hchecks
  have hlexical := eq_ok_of_isOk hchecks.1
  have hnonempty := eq_ok_of_isOk hchecks.2
  obtain ⟨hiff, -⟩ := ruleCycle_exact h hlexical hnonempty
  exact ⟨o, d, start, h, hlexical, hnonempty, hiff.mp ⟨_, _, herror⟩, herror⟩

end Scannerless
