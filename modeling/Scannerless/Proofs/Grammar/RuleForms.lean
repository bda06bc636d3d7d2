import Scannerless.Draft.Structural

/-!
# Forms of structural rules

A sequence looks its symbols up and then adds rules that depend on these symbols only. A
definition in tiers makes the symbols of its tiers, adds the rules that lead to them, and then
those of its alternatives. What is so of the rules of every list of that form is so of what these
steps add.

## Main definitions

- `alternativeRule`, `spliceRule` — the rule of an alternative, and one that hands values on.
- `SequenceParts` — the symbols and adverbs of a sequence; `SequenceParts.rules`.
- `Draft.chainRules` — the rules that lead from tier to tier.

## Main statements

- `Drafting.sequence_eq`, `Drafting.precedence_eq` — the rules that sequences and definitions in
  tiers add.
-/

namespace Scannerless

/-- The rule of an alternative with its right side. -/
def alternativeRule (lhs : SymbolId) (rhs : List SymbolId) (name : String)
    (adverbs : RuleAdverbs) : Rule :=
  ⟨lhs, rhs, name, .apply adverbs.action, rhs.map fun _ => true, adverbs.rank⟩

/-- A rule that hands the values of its symbols on. -/
def spliceRule (lhs : SymbolId) (rhs : List SymbolId) (name : String) : Rule :=
  ⟨lhs, rhs, name, .splice, rhs.map fun _ => true, 0⟩

/-! ### Sequences -/

/-- The adverbs of a sequence with the symbols of its items, of its separator and of the
    list of its items. -/
structure SequenceParts where
  adverbs : RuleAdverbs
  element : SymbolId
  separator : Option SymbolId
  items : SymbolId

namespace SequenceParts

/-- The rules of the list of items. -/
def itemRules (p : SequenceParts) (name : String) : List Rule :=
  [spliceRule p.items [p.element] name,
    match p.separator with
    | none => spliceRule p.items [p.items, p.element] name
    | some s =>
      ⟨p.items, [p.items, s, p.element], name, .splice, [true, p.adverbs.keep, true], 0⟩]

/-- The rules of the name of a sequence: its items, with a separator behind them unless the
    sequence is proper, or nothing. -/
def nameRules (p : SequenceParts) (lhs : SymbolId) (name : String) (q : Quantifier) :
    List Rule :=
  alternativeRule lhs [p.items] name p.adverbs ::
    ((match p.separator with
      | none => []
      | some s =>
        if p.adverbs.proper then []
        else
          [⟨lhs, [p.items, s], name, .apply p.adverbs.action, [true, p.adverbs.keep],
            p.adverbs.rank⟩]) ++
      if q = .star then [alternativeRule lhs [] name p.adverbs] else [])

def rules (p : SequenceParts) (lhs : SymbolId) (name : String) (q : Quantifier) : List Rule :=
  p.itemRules name ++ p.nameRules lhs name q

variable {p : SequenceParts} {lhs s : SymbolId} {name : String} {q : Quantifier} {r : Rule}

theorem mem_itemRules_iff : r ∈ p.itemRules name ↔
    r = spliceRule p.items [p.element] name ∨
    (p.separator = none ∧ r = spliceRule p.items [p.items, p.element] name) ∨
    ∃ s, p.separator = some s ∧
      r = ⟨p.items, [p.items, s, p.element], name, .splice, [true, p.adverbs.keep, true], 0⟩ := by
  obtain ⟨adverbs, element, separator, items⟩ := p
  cases separator <;> simp [itemRules]

theorem mem_nameRules_iff : r ∈ p.nameRules lhs name q ↔
    r = alternativeRule lhs [p.items] name p.adverbs ∨
    (∃ s, p.separator = some s ∧ p.adverbs.proper = false ∧
      r = ⟨lhs, [p.items, s], name, .apply p.adverbs.action, [true, p.adverbs.keep],
        p.adverbs.rank⟩) ∨
    (q = .star ∧ r = alternativeRule lhs [] name p.adverbs) := by
  obtain ⟨adverbs, element, separator, items⟩ := p
  cases separator with
  | none => simp [nameRules]
  | some s => by_cases hproper : adverbs.proper <;> simp [nameRules, hproper]

/-- The rules of a sequence one by one. -/
theorem mem_rules_iff : r ∈ p.rules lhs name q ↔
    r = spliceRule p.items [p.element] name ∨
    (p.separator = none ∧ r = spliceRule p.items [p.items, p.element] name) ∨
    (∃ s, p.separator = some s ∧
      r = ⟨p.items, [p.items, s, p.element], name, .splice, [true, p.adverbs.keep, true], 0⟩) ∨
    r = alternativeRule lhs [p.items] name p.adverbs ∨
    (∃ s, p.separator = some s ∧ p.adverbs.proper = false ∧
      r = ⟨lhs, [p.items, s], name, .apply p.adverbs.action, [true, p.adverbs.keep],
        p.adverbs.rank⟩) ∨
    (q = .star ∧ r = alternativeRule lhs [] name p.adverbs) := by
  rw [rules, List.mem_append, mem_itemRules_iff, mem_nameRules_iff, or_assoc, or_assoc]

/-- The rules of the items hand their values on, those of the name apply its action. -/
theorem cases_of_mem_rules (h : r ∈ p.rules lhs name q) :
    r.lhs = p.items ∧ r.semantics = .splice ∨
      r.lhs = lhs ∧ r.semantics = .apply p.adverbs.action := by
  rw [mem_rules_iff] at h
  rcases h with rfl | ⟨-, rfl⟩ | ⟨s, -, rfl⟩ | rfl | ⟨s, -, -, rfl⟩ | ⟨-, rfl⟩
  · exact Or.inl ⟨rfl, rfl⟩
  · exact Or.inl ⟨rfl, rfl⟩
  · exact Or.inl ⟨rfl, rfl⟩
  · exact Or.inr ⟨rfl, rfl⟩
  · exact Or.inr ⟨rfl, rfl⟩
  · exact Or.inr ⟨rfl, rfl⟩

theorem lhs_of_mem_rules (h : r ∈ p.rules lhs name q) : r.lhs = lhs ∨ r.lhs = p.items :=
  (cases_of_mem_rules h).symm.imp And.left And.left

theorem mem_of_mem_rhs (hr : r ∈ p.rules lhs name q) (hs : s ∈ r.rhs) :
    s = p.items ∨ s = p.element ∨ p.separator = some s := by
  rw [mem_rules_iff] at hr
  rcases hr with rfl | ⟨-, rfl⟩ | ⟨x, hx, rfl⟩ | rfl | ⟨x, hx, -, rfl⟩ | ⟨-, rfl⟩ <;>
    simp [spliceRule, alternativeRule] at hs
  · exact Or.inr (Or.inl hs)
  · exact hs.imp_right Or.inl
  · rcases hs with rfl | rfl | rfl
    · exact Or.inl rfl
    · exact Or.inr (Or.inr hx)
    · exact Or.inr (Or.inl rfl)
  · exact Or.inl hs
  · rcases hs with rfl | rfl
    · exact Or.inl rfl
    · exact Or.inr (Or.inr hx)

theorem length_mask_of_mem_rules (h : r ∈ p.rules lhs name q) :
    r.mask.length = r.rhs.length := by
  rw [mem_rules_iff] at h
  rcases h with rfl | ⟨-, rfl⟩ | ⟨s, -, rfl⟩ | rfl | ⟨s, -, -, rfl⟩ | ⟨-, rfl⟩ <;>
    simp [spliceRule, alternativeRule]

end SequenceParts

/-! ### Tiers -/

/-- The rules that lead from a name to the loosest tier, and from tier to tier. -/
def Draft.chainRules (lhs : SymbolId) (name : String) (levels : List SymbolId) : List Rule :=
  (levels.getLast?.map fun loosest => spliceRule lhs [loosest] name).toList ++
    (levels.tail.zip levels).map fun pair => spliceRule pair.1 [pair.2] name

/-- A rule that leads to a tier hands its value on. -/
theorem Draft.exists_of_mem_chainRules {lhs : SymbolId} {name : String} {levels : List SymbolId}
    {r : Rule} (h : r ∈ chainRules lhs name levels) :
    ∃ s, (s = lhs ∨ s ∈ levels) ∧ ∃ tier ∈ levels, r = spliceRule s [tier] name := by
  rcases List.mem_append.mp h with h | h
  · obtain ⟨loosest, hloosest, rfl⟩ := Option.map_eq_some_iff.mp (Option.mem_toList.mp h)
    exact ⟨lhs, Or.inl rfl, loosest, List.mem_of_getLast? hloosest, rfl⟩
  · obtain ⟨pair, hpair, rfl⟩ := List.mem_map.mp h
    obtain ⟨hcurrent, htighter⟩ := List.of_mem_zip hpair
    exact ⟨pair.1, Or.inr (List.mem_of_mem_tail hcurrent), pair.2, htighter, rfl⟩

/-- Operands stand for the symbol of the definition or of a tier. -/
theorem mem_of_mem_placeOperands {a : Associativity} {lhs current tighter s : SymbolId}
    {isFirst : Bool} {operands : List Bool} {rhs : List SymbolId}
    (h : s ∈ placeOperands a lhs current tighter isFirst operands rhs) :
    s ∈ rhs ∨ s = lhs ∨ s = current ∨ s = tighter := by
  have hoperand (isFirst isLast : Bool) :
      a.operand lhs current tighter isFirst isLast = lhs ∨
        a.operand lhs current tighter isFirst isLast = current ∨
        a.operand lhs current tighter isFirst isLast = tighter := by
    cases a <;> cases isFirst <;> cases isLast <;> simp [Associativity.operand]
  fun_induction placeOperands a lhs current tighter isFirst operands rhs with
  | case1 isFirst operands x rhs ih =>
    rcases List.mem_cons.mp h with rfl | h
    · exact Or.inr (hoperand _ _)
    · exact (ih h).imp_left (List.mem_cons_of_mem x)
  | case2 isFirst operands x rhs ih =>
    rcases List.mem_cons.mp h with rfl | h
    · exact Or.inl List.mem_cons_self
    · exact (ih h).imp_left (List.mem_cons_of_mem x)
  | case3 => exact Or.inl h

/-! ### What the steps add -/

namespace Drafting

/-- A sequence looks its symbols up and then adds the rules of its parts. -/
theorem sequence_eq (o : Outline) (lhs : SymbolId) (name : String) (item : RhsItem)
    (alt : Alternative) :
    sequence o lhs name item alt = (do
      let adverbs ← RuleAdverbs.read true alt.adverbs
      let element ← structuralSymbol o item.element item.offset
      let separator ← adverbs.separator.mapM fun x => structuralSymbol o x.1 x.2
      let items ← addSymbol (name ++ "[Seq]") .nonterminal alt.offset
      (SequenceParts.rules ⟨adverbs, element, separator, items⟩ lhs name item.quantifier).forM
        (addRule .structural)) := by
  rw [sequence]
  refine bind_congr fun adverbs => bind_congr fun element => bind_congr fun separator =>
    bind_congr fun items => ?_
  simp only [SequenceParts.rules, SequenceParts.itemRules, SequenceParts.nameRules, addPlain]
  cases separator with
  | none => by_cases hq : item.quantifier = .star <;> simp [hq, spliceRule, alternativeRule]
  | some s =>
    by_cases hq : item.quantifier = .star <;> by_cases hproper : adverbs.proper <;>
      simp [hq, hproper, spliceRule, alternativeRule]

/-- A definition in tiers makes the symbols of the tiers, adds the rules that lead to them and
    then those of its alternatives. -/
theorem precedence_eq (o : Outline) (lhs : SymbolId) (name : String)
    (tiers : List (List Alternative)) :
    precedence o lhs name tiers = (do
      let d ← get
      let levels ← (List.range tiers.length).mapM fun p =>
        addSymbol (name ++ "[" ++ toString p ++ "]") .nonterminal (d.offset lhs)
      (Draft.chainRules lhs name levels).forM (addRule .structural)
      (tiers.zip (levels.zip (levels.take 1 ++ levels))).forM fun x =>
        x.1.forM (tierAlternative o lhs name x.2.1 x.2.2)) := by
  rw [precedence]
  refine bind_congr fun d => bind_congr fun levels => ?_
  simp only [Draft.chainRules, List.forM_eq_forM, List.forM_append, List.forM_map, bind_assoc]
  cases levels.getLast? with
  | none => simp [addPlain, spliceRule]
  | some loosest => simp [addPlain, spliceRule]

end Drafting

end Scannerless
