import Scannerless.Proofs.Grammar.SequenceExactness
import Scannerless.Proofs.Grammar.Tiers

/-!
# Definitions in tiers are exact

The rules that a definition in tiers adds have the trees over its alternatives as they are
written, in which the operands of an alternative have a tier on top that the associativity
allows.

## Main definitions

- `tierAlternatives` — the alternatives of a definition with the numbers of their tiers.
- `Operator.Of` — an alternative as it is written; `Tiering.rules` — the rules of a definition.

## Main statements

- `Footprint.LeftBy.exists_tiering`, `Footprint.LeftBy.tiered` — the rules that a definition in
  tiers leaves.
- `precedence_exact` — the trees of an accepted definition in tiers correspond to those over
  its alternatives.
-/

namespace Scannerless

/-- The alternatives of a definition with the numbers of their tiers, the tightest first. -/
def tierAlternatives (tiers : List (List Alternative)) : List (Nat × Alternative) :=
  tiers.zipIdx.flatMap fun tier => tier.1.map fun alt => (tier.2, alt)

theorem mem_tierAlternatives {tiers : List (List Alternative)} {p : Nat} {alt : Alternative} :
    (p, alt) ∈ tierAlternatives tiers ↔ ∃ tier, tiers[p]? = some tier ∧ alt ∈ tier := by
  simp only [tierAlternatives, List.mem_flatMap, List.mem_map, Prod.exists, Prod.mk.injEq,
    List.mk_mem_zipIdx_iff_getElem?]
  constructor
  · rintro ⟨tier, q, htier, x, hx, rfl, rfl⟩
    exact ⟨tier, htier, hx⟩
  · rintro ⟨tier, htier, hx⟩
    exact ⟨tier, p, htier, alt, hx, rfl, rfl⟩

/-- An alternative is as it is written in a tier, given what spellings stand for. -/
structure Operator.Of (stands : String → SymbolId → Prop) (x : Nat × Alternative)
    (op : Operator) : Prop where
  tier : op.tier = x.1
  adverbs : RuleAdverbs.read false x.2.adverbs = .ok op.adverbs
  rhs : List.Forall₂ (fun item s => stands item.element s) x.2.rhs op.rhs

theorem Operator.Of.mono {S S' : String → SymbolId → Prop} (hS : ∀ raw s, S raw s → S' raw s)
    {x : Nat × Alternative} {op : Operator} (h : Operator.Of S x op) : Operator.Of S' x op :=
  ⟨h.tier, h.adverbs, h.rhs.imp fun _ _ => hS _ _⟩

namespace Tiering

variable {T : Tiering} {name : String} {k p : Nat} {op : Operator}

/-- The spliced rule that leads to the loosest tier, or from a tier to the next tighter one. -/
def splice (T : Tiering) (name : String) (p : Nat) : Rule :=
  if p = 0 then spliceRule T.lhs [T.level (T.count - 1)] name
  else spliceRule (T.level p) [T.level (p - 1)] name

/-- The rule of an alternative. -/
def rule (T : Tiering) (name : String) (op : Operator) : Rule :=
  alternativeRule (T.level op.tier) (T.rhsOf op) name op.adverbs

/-- The spliced rules, and those of the alternatives. -/
def rules (T : Tiering) (name : String) : List Rule :=
  (List.range T.count).map (T.splice name) ++ T.operators.map (T.rule name)

theorem rules_of_lt (hp : p < T.count) : (T.rules name)[p]? = some (T.splice name p) := by
  rw [rules, List.getElem?_append_left (by simpa using hp)]
  simp [hp]

theorem rules_add : (T.rules name)[T.count + k]? = T.operators[k]?.map (T.rule name) := by
  rw [rules, List.getElem?_append_right (by simp)]
  simp

theorem operator?_add : T.operator? (T.first + T.count + k) = T.operators[k]? := by
  rw [operator?, if_neg (Nat.not_lt.mpr (Nat.le_add_right _ _)), Nat.add_sub_cancel_left]

/-- The number of the rule of an alternative. -/
theorem operator?_eq_some {id : RuleId} (h : T.operator? id = some op) :
    ∃ k, id = T.first + (T.count + k) ∧ T.operators[k]? = some op := by
  rw [operator?] at h
  split at h
  · cases h
  next hle =>
    obtain ⟨k, rfl⟩ := Nat.exists_eq_add_of_le (Nat.le_of_not_lt hle)
    rw [Nat.add_sub_cancel_left] at h
    exact ⟨k, Nat.add_assoc _ _ _, h⟩

/-- A rule is spliced or that of an alternative. -/
theorem rules_cases {k : Nat} {r : Rule} (h : (T.rules name)[k]? = some r) :
    (k < T.count ∧ r = T.splice name k) ∨
      ∃ op, T.operator? (T.first + k) = some op ∧ r = T.rule name op := by
  rcases Nat.lt_or_ge k T.count with hk | hk
  · rw [rules_of_lt hk] at h
    exact Or.inl ⟨hk, (Option.some.inj h).symm⟩
  · obtain ⟨k, rfl⟩ := Nat.exists_eq_add_of_le hk
    rw [rules_add, Option.map_eq_some_iff] at h
    obtain ⟨op, hop, rfl⟩ := h
    exact Or.inr ⟨op, by rw [← Nat.add_assoc, operator?_add, hop], rfl⟩

end Tiering

/-! ### Alternatives of tiers -/

namespace Draft

variable {o : Outline} {d : Draft} {lhs : SymbolId} {name : String}

/-- The spliced rules of tiers whose symbols follow one another. -/
theorem chainRules_range' {T : Tiering} (hpos : 0 < T.count) :
    chainRules T.lhs name (List.range' T.base T.count) =
      (List.range T.count).map (T.splice name) := by
  obtain ⟨n, hn⟩ : ∃ n, T.count = n + 1 := Nat.exists_eq_succ_of_ne_zero (Nat.ne_of_gt hpos)
  have hzip : (List.range' (T.base + 1) n).zip (List.range' T.base (n + 1)) =
      (List.range n).map fun p => (T.level (p + 1), T.level p) := by
    refine List.ext_getElem (by simp) fun p _ _ => ?_
    simp [Tiering.level, Nat.add_assoc, Nat.add_comm 1]
  rw [chainRules, hn, List.tail_range', Nat.add_sub_cancel, hzip, List.getLast?_range',
    List.map_map, List.range_succ_eq_map, List.map_cons, List.map_map]
  simp [Tiering.splice, Tiering.level, hn, Function.comp_def]

/-- The rules of the tiers, one for each alternative. -/
theorem TierRules.flatten {base : Nat} {tiers : List (List Alternative)}
    {rules : List (List Rule)}
    (h : d.TierRules o lhs name tiers (List.range' base tiers.length) rules) :
    List.Forall₂ (fun x r => d.TierRule o lhs name (base + x.1) (base + (x.1 - 1)) x.2 r)
      (tierAlternatives tiers) rules.flatten := by
  have hzip : tiers.zip ((List.range' base tiers.length).zip
      ((List.range' base tiers.length).take 1 ++ List.range' base tiers.length)) =
      tiers.zipIdx.map fun x => (x.1, base + x.2, base + (x.2 - 1)) := by
    refine List.ext_getElem (by simp) fun p hp _ => ?_
    have hsecond : (List.range' base tiers.length).take 1 ++ List.range' base tiers.length =
        base :: List.range' base tiers.length := by
      have hpos : tiers.length ≠ 0 := by
        rintro hzero
        simp [hzero] at hp
      obtain ⟨n, hn⟩ := Nat.exists_eq_succ_of_ne_zero hpos
      rw [hn]
      rfl
    cases p with
    | zero => simp [hsecond]
    | succ p => simp [hsecond]
  rw [TierRules, hzip, List.forall₂_map_left_iff] at h
  rw [tierAlternatives]
  generalize tiers.zipIdx = xs at h
  induction h with
  | nil => exact .nil
  | @cons x rs _ _ hx _ ih =>
    have hfirst : List.Forall₂
        (fun x r => d.TierRule o lhs name (base + x.1) (base + (x.1 - 1)) x.2 r)
        (x.1.map fun alt => (x.2, alt)) rs :=
      List.forall₂_map_left_iff.mpr hx
    rw [List.flatMap_cons, List.flatten_cons]
    exact List.rel_append hfirst ih

/-- A name stands for its symbol only. -/
theorem Orderly.isOperand_eq (hd : d.Orderly o) (hlhs : o.structuralId? name = some lhs)
    {item : RhsItem} {s : SymbolId} (hs : d.StandsFor o item.element s) :
    item.isOperand name = (s == lhs) := by
  obtain ⟨offset, hentry⟩ := Outline.structuralId?_eq_some hlhs
  obtain ⟨e, he, hstands⟩ := hs
  rw [RhsItem.isOperand, he, Bool.eq_iff_iff, beq_iff_eq, beq_iff_eq]
  cases hstands with
  | @structural n _ hid =>
    constructor
    · intro heq
      obtain rfl := Element.name.inj heq
      exact Option.some.inj (hid.symm.trans hlhs)
    · rintro rfl
      obtain ⟨offset', hentry'⟩ := Outline.structuralId?_eq_some hid
      obtain ⟨rfl, -⟩ := Prod.mk.inj (Option.some.inj (hentry'.symm.trans hentry))
      rfl
  | @lexical n _ hnone hid =>
    constructor
    · intro heq
      obtain rfl := Element.name.inj heq
      rw [hnone] at hlhs
      cases hlhs
    · rintro rfl
      obtain ⟨i, offset', -, hle⟩ := Outline.lexicalId?_eq_some hid
      have hlt := Plan.structuralId?_lt hlhs
      rw [hle] at hlt
      exact absurd hlt (Nat.not_lt_of_le (Nat.le_add_right _ _))
  | terminal ht hlookup =>
    constructor
    · intro heq
      cases heq
    · rintro rfl
      exact absurd (Outline.isName_of_structuralId? hlhs) (hd.isTerminal ht hlookup).1

/-- The rule of an alternative of a tier is that of the alternative as it is written. -/
theorem Orderly.exists_operator (hd : d.Orderly o) {T : Tiering}
    (hlhs : o.structuralId? name = some T.lhs) {x : Nat × Alternative} {r : Rule}
    (h : d.TierRule o T.lhs name (T.level x.1) (T.level (x.1 - 1)) x.2 r) :
    ∃ op, Operator.Of (d.StandsFor o) x op ∧ r = T.rule name op := by
  obtain ⟨adverbs, rhs, hread, hrhs, rfl⟩ := h
  have hoperands : x.2.rhs.map (RhsItem.isOperand name) = rhs.map (· == T.lhs) := by
    generalize x.2.rhs = items at hrhs
    induction hrhs with
    | nil => rfl
    | cons hs _ ih => rw [List.map_cons, List.map_cons, ih, hd.isOperand_eq hlhs hs]
  exact ⟨⟨x.1, adverbs, rhs⟩, ⟨rfl, hread, hrhs⟩, by rw [hoperands]; rfl⟩

/-- The rules of the tiers are those of their alternatives. -/
theorem Orderly.exists_operators (hd : d.Orderly o) {T : Tiering}
    (hlhs : o.structuralId? name = some T.lhs) {tiers : List (List Alternative)}
    {rules : List (List Rule)}
    (h : d.TierRules o T.lhs name tiers (List.range' T.base tiers.length) rules) :
    ∃ operators, List.Forall₂ (Operator.Of (d.StandsFor o)) (tierAlternatives tiers) operators ∧
      rules.flatten = operators.map (T.rule name) := by
  have hrules := h.flatten
  generalize tierAlternatives tiers = xs, rules.flatten = rs at hrules
  induction hrules with
  | nil => exact ⟨[], .nil, rfl⟩
  | cons hx _ ih =>
    obtain ⟨op, hop, rfl⟩ := hd.exists_operator hlhs hx
    obtain ⟨operators, hoperators, rfl⟩ := ih
    exact ⟨op :: operators, .cons hop hoperators, rfl⟩

end Draft

/-! ### Exactness -/

namespace Footprint

variable {f : Footprint} {ss before after : List Statement} {spelling : String}
  {tiers : List (List Alternative)} {offset : Nat} {g : Grammar} {o : Outline} {d : Draft}
  {T : Tiering} {id : RuleId} {r : Rule} {op : Operator}

/-- A footprint is that of a definition in tiers. -/
structure Tiers (f : Footprint) (tiers : List (List Alternative)) (o : Outline) (d : Draft)
    (T : Tiering) : Prop where
  lhs : T.lhs = f.lhs
  count : T.count = tiers.length
  first : T.first = f.first
  start : f.start ≤ T.base
  stop : T.base + T.count ≤ f.stop
  operators : List.Forall₂ (Operator.Of (d.StandsFor o)) (tierAlternatives tiers) T.operators
  rules : f.rules = T.rules f.name

theorem LeftBy.exists_tiers (hf : f.LeftBy before after spelling tiers g o d)
    (hd : d.Orderly o) (htiers : 2 ≤ tiers.length) : ∃ T, f.Tiers tiers o d T := by
  have hlowers := hf.lowers
  generalize hrules : f.rules = rules at hlowers
  cases hlowers with
  | plain _ _ => exact absurd htiers (by simp)
  | sequence _ _ _ _ _ => exact absurd htiers (by simp)
  | @tiers _ base rules _ hstart hstop htier =>
    let T : Tiering := ⟨f.lhs, tiers.length, base, f.first, []⟩
    obtain ⟨operators, hoperators, hflatten⟩ := hd.exists_operators (T := T) hf.structuralId? htier
    refine ⟨{ T with operators }, rfl, rfl, rfl, hstart, hstop, hoperators, ?_⟩
    rw [hrules, hflatten]
    congr 1
    exact Draft.chainRules_range' (T := T) (Nat.lt_of_lt_of_le Nat.zero_lt_two htiers)

/-- A name that is defined in tiers has no other definition. -/
theorem LeftBy.structuralName?_ne (hf : f.LeftBy before after spelling tiers g o d)
    (h : Lowered ss g o d) (hss : ss = before ++ .structural spelling tiers offset :: after)
    (htiers : 2 ≤ tiers.length) : ∀ x ∈ before ++ after, x.structuralName? ≠ some f.name := by
  have hlists := Outline.lists_of_ofStatements h.outline
  have hdefines : (Statement.structural spelling tiers offset).structuralName? = some f.name :=
    Outline.structural_name hf.decode
  have hunique := hlists.unique f.name
    (hlists.prioritized (.structural spelling tiers offset) (by simp [hss])
      (decide_eq_true htiers) f.name hdefines)
  rw [hss, List.filter_append, List.filter_cons_of_pos (by simp [hdefines]), List.length_append,
    List.length_cons, ← Nat.add_assoc, Nat.add_eq_right, ← List.length_append,
    List.length_eq_zero_iff, ← List.filter_append, List.filter_eq_nil_iff] at hunique
  intro x hx hname
  exact hunique x hx (by simp [hname])

/-- A name that is defined in tiers has no other rules. -/
theorem LeftBy.has_of_lhs (hf : f.LeftBy before after spelling tiers g o d) (h : Lowered ss g o d)
    (hss : ss = before ++ .structural spelling tiers offset :: after) (htiers : 2 ≤ tiers.length)
    (hr : g.structural.rule? id = some r) (hlhs : r.lhs = f.lhs) : f.Has id := by
  by_contra hno
  obtain ⟨x, hx, hname⟩ := (hf.elsewhere id r hr hno).2.1 hlhs
  exact hf.structuralName?_ne h hss htiers x hx hname

namespace Tiers

theorem not_isLevel_lhs (hT : f.Tiers tiers o d T)
    (hf : f.LeftBy before after spelling tiers g o d) : ¬T.IsLevel T.lhs := by
  intro hlevel
  have hlt := hf.lt_start f.lhs (Outline.isName_of_structuralId? hf.structuralId?)
  rw [hT.lhs] at hlevel
  exact Nat.not_lt_of_le (Nat.le_trans hT.start hlevel.1) hlt

theorem rule?_splice (hT : f.Tiers tiers o d T)
    (hf : f.LeftBy before after spelling tiers g o d) {p : Nat} (hp : p < T.count) :
    g.structural.rule? (T.first + p) = some (T.splice f.name p) := by
  rw [hT.first]
  exact hf.rule? p _ (hT.rules ▸ Tiering.rules_of_lt hp)

theorem rule?_operator (hT : f.Tiers tiers o d T)
    (hf : f.LeftBy before after spelling tiers g o d) (hop : T.operator? id = some op) :
    g.structural.rule? id = some (T.rule f.name op) := by
  obtain ⟨k, rfl, hk⟩ := Tiering.operator?_eq_some hop
  rw [hT.first]
  refine hf.rule? _ _ ?_
  rw [hT.rules, Tiering.rules_add, hk, Option.map_some]

theorem rule_cases (hT : f.Tiers tiers o d T)
    (hf : f.LeftBy before after spelling tiers g o d) (hid : f.Has id)
    (hr : g.structural.rule? id = some r) :
    (∃ p, p < T.count ∧ id = T.first + p ∧ r = T.splice f.name p) ∨
      ∃ op, T.operator? id = some op ∧ r = T.rule f.name op := by
  obtain ⟨k, rfl⟩ := Nat.exists_eq_add_of_le hid.1
  have hk : f.rules[k]? = some r := by
    have hk := List.getElem?_eq_getElem (Nat.lt_of_add_lt_add_left hid.2)
    rw [hk, ← hf.rule? k _ hk, hr]
  rw [← hT.first]
  rcases Tiering.rules_cases (hT.rules ▸ hk) with ⟨hlt, hsplice⟩ | hoperator
  · exact Or.inl ⟨k, hlt, rfl, hsplice⟩
  · exact Or.inr hoperator

theorem exists_alternative (hT : f.Tiers tiers o d T) (hop : T.operator? id = some op) :
    ∃ x ∈ tierAlternatives tiers, Operator.Of (d.StandsFor o) x op := by
  obtain ⟨k, -, hk⟩ := Tiering.operator?_eq_some hop
  exact exists_mem_of_forall₂ hT.operators.flip (List.mem_of_getElem? hk)

theorem tier_lt (hT : f.Tiers tiers o d T) (hop : T.operator? id = some op) :
    op.tier < T.count := by
  obtain ⟨⟨p, alt⟩, hx, hwritten⟩ := hT.exists_alternative hop
  obtain ⟨tier, htier, -⟩ := mem_tierAlternatives.mp hx
  rw [hT.count, hwritten.tier]
  exact (List.getElem?_eq_some_iff.mp htier).1

/-- Every tier has an alternative. -/
theorem exists_operator (hT : f.Tiers tiers o d T) (h : Lowered ss g o d)
    (hss : ss = before ++ .structural spelling tiers offset :: after) {p : Nat}
    (hp : p < T.count) : ∃ id op, T.operator? id = some op ∧ op.tier = p := by
  have hinhabited := (Outline.lists_of_ofStatements h.outline).inhabited
    (.structural spelling tiers offset) (by simp [hss])
  have htier := List.getElem?_eq_getElem (hT.count ▸ hp)
  obtain ⟨alt, halt⟩ := List.exists_mem_of_ne_nil _ (hinhabited.2 _ (List.mem_of_getElem? htier))
  obtain ⟨op, hop, hwritten⟩ :=
    exists_mem_of_forall₂ hT.operators (mem_tierAlternatives.mpr ⟨_, htier, halt⟩)
  obtain ⟨k, hk, rfl⟩ := List.getElem_of_mem hop
  refine ⟨T.first + T.count + k, _, ?_, hwritten.tier⟩
  rw [Tiering.operator?_add, List.getElem?_eq_getElem hk]

/-- The symbols of tiers have rules. -/
theorem exists_rule (hT : f.Tiers tiers o d T) (hf : f.LeftBy before after spelling tiers g o d)
    (h : Lowered ss g o d) (hss : ss = before ++ .structural spelling tiers offset :: after)
    {p : Nat} (hp : p < T.count) : ∃ id, g.structural.lhs? id = some (T.level p) := by
  obtain ⟨id, op, hop, rfl⟩ := hT.exists_operator h hss hp
  exact ⟨id, RuleTable.lhs?_eq_some.mpr ⟨_, hT.rule?_operator hf hop, rfl⟩⟩

/-- The symbols of tiers stand for no spelling. -/
theorem not_isLevel_of_standsFor (hT : f.Tiers tiers o d T)
    (hf : f.LeftBy before after spelling tiers g o d) (h : Lowered ss g o d)
    (hss : ss = before ++ .structural spelling tiers offset :: after) {raw : String}
    {s : SymbolId} (hs : d.StandsFor o raw s) : ¬T.IsLevel s := by
  intro hlevel
  obtain ⟨p, hp, rfl⟩ := Tiering.exists_level hlevel
  obtain ⟨id, hid⟩ := hT.exists_rule hf h hss hp
  exact hf.ne_own h hs hid (Nat.le_trans hT.start hlevel.1) rfl

/-- Apart from the first one, the rules are rules of tiers. -/
theorem eq_first_or_isLevel (hT : f.Tiers tiers o d T)
    (hf : f.LeftBy before after spelling tiers g o d) (hid : f.Has id)
    (hr : g.structural.rule? id = some r) : id = T.first ∧ r.lhs = T.lhs ∨ T.IsLevel r.lhs := by
  rcases hT.rule_cases hf hid hr with ⟨p, hp, rfl, rfl⟩ | ⟨op, hop, rfl⟩
  · by_cases hzero : p = 0
    · rw [Tiering.splice, if_pos hzero, hzero]
      exact Or.inl ⟨rfl, rfl⟩
    · rw [Tiering.splice, if_neg hzero]
      exact Or.inr (Tiering.isLevel_level hp)
  · exact Or.inr (Tiering.isLevel_level (hT.tier_lt hop))

/-- The symbols of tiers stand in no rules but those of the definition. -/
theorem not_isLevel_of_mem_rhs (hT : f.Tiers tiers o d T)
    (hf : f.LeftBy before after spelling tiers g o d) (h : Lowered ss g o d)
    (hss : ss = before ++ .structural spelling tiers offset :: after)
    (hr : g.structural.rule? id = some r) (hno : ¬f.Has id) {x : SymbolId} (hx : x ∈ r.rhs) :
    ¬T.IsLevel x := by
  rcases (hf.elsewhere id r hr hno).2.2 x hx with ⟨raw, hstands⟩ | hlt | hle
  · exact hT.not_isLevel_of_standsFor hf h hss hstands
  · exact fun hx => Nat.not_lt_of_le (Nat.le_trans hT.start hx.1) hlt
  · exact fun hx => Nat.not_lt_of_le (Nat.le_trans hT.stop hle) hx.2

/-- The rules that a definition in tiers leaves. -/
theorem tiered (hT : f.Tiers tiers o d T) (hf : f.LeftBy before after spelling tiers g o d)
    (h : Lowered ss g o d) (hss : ss = before ++ .structural spelling tiers offset :: after)
    (htiers : 2 ≤ tiers.length) : g.structural.Tiered T := by
  have hpos : 0 < T.count := hT.count ▸ Nat.lt_of_lt_of_le Nat.zero_lt_two htiers
  have hlhs := hT.not_isLevel_lhs hf
  have hfirst := hT.rule?_splice hf hpos
  refine
    { indexed := h.coherent.structural
      pos := hpos
      lhs := hlhs
      name := fun id => ⟨fun hid => ?_, ?_⟩
      name_rhs := RuleTable.rhs_of_rule? hfirst
      step := fun p hp hlt => ?_
      operator := fun id op hop => ?_
      tightest := hT.exists_rule hf h hss hpos
      level := fun id s hid hs => ?_
      other := fun id s hid hname hs x hx => ?_ }
  · obtain ⟨r, hr, hrlhs⟩ := RuleTable.lhs?_eq_some.mp hid
    have hhas := hf.has_of_lhs h hss htiers hr (hrlhs.trans hT.lhs)
    rcases hT.eq_first_or_isLevel hf hhas hr with ⟨hid, -⟩ | hlevel
    · exact hid
    · exact absurd (hrlhs ▸ hlevel) hlhs
  · rintro rfl
    exact RuleTable.lhs?_eq_some.mpr ⟨_, hfirst, rfl⟩
  · have hr := hT.rule?_splice hf hlt
    rw [Tiering.splice, if_neg (Nat.ne_of_gt hp)] at hr
    exact ⟨RuleTable.lhs?_eq_some.mpr ⟨_, hr, rfl⟩, RuleTable.rhs_of_rule? hr⟩
  · have hr := hT.rule?_operator hf hop
    obtain ⟨x, -, hwritten⟩ := hT.exists_alternative hop
    refine ⟨hT.tier_lt hop, RuleTable.lhs?_eq_some.mpr ⟨_, hr, rfl⟩, RuleTable.rhs_of_rule? hr,
      fun s hs => ?_⟩
    obtain ⟨item, -, hstands⟩ := exists_mem_of_forall₂ hwritten.rhs.flip hs
    exact hT.not_isLevel_of_standsFor hf h hss hstands
  · obtain ⟨r, hr, rfl⟩ := RuleTable.lhs?_eq_some.mp hid
    have hhas := hf.has_of_own hr (Nat.le_trans hT.start hs.1) (Nat.lt_of_lt_of_le hs.2 hT.stop)
    rcases hT.rule_cases hf hhas hr with ⟨p, hp, rfl, -⟩ | ⟨op, hop, -⟩
    · exact Or.inl (RuleTable.Tiered.spliced_add hp)
    · exact Or.inr ⟨op, hop⟩
  · obtain ⟨r, hr, rfl⟩ := RuleTable.lhs?_eq_some.mp hid
    rw [RuleTable.rhs_of_rule? hr] at hx
    refine hT.not_isLevel_of_mem_rhs hf h hss hr (fun hhas => ?_) hx
    rcases hT.eq_first_or_isLevel hf hhas hr with ⟨-, heq⟩ | hlevel
    · exact hname heq
    · exact hs hlevel

end Tiers

end Footprint

/-- The rules that an accepted definition in tiers adds are spliced ones, which lead from its
    name to the loosest tier and from each tier to the next tighter one, and one for each of
    its alternatives. Without the spliced rules the trees of the name are those over the
    alternatives as they are written, in which the operands have tiers on top that the
    associativity allows, and each of these comes from one tree. -/
theorem precedence_exact {ss before after : List Statement} {description spelling : String}
    {tiers : List (List Alternative)} {offset : Nat} {g : Grammar}
    (h : Grammar.ofStatements ss description = .ok g)
    (hss : ss = before ++ .structural spelling tiers offset :: after)
    (htiers : 2 ≤ tiers.length) :
    ∃ (T : Tiering) (name : String), Element.decode spelling = .ok (.name name) ∧
      g.StandsFor spelling T.lhs ∧ T.count = tiers.length ∧
      List.Forall₂ (Operator.Of g.StandsFor) (tierAlternatives tiers) T.operators ∧
      (∀ id, Statement.Adds ss before (.structural spelling tiers offset) id ↔
        T.first ≤ id ∧ id < T.first + (T.rules name).length) ∧
      (∀ k r, (T.rules name)[k]? = some r → g.structural.rule? (T.first + k) = some r) ∧
      ∀ l i j, Set.BijOn (Tree.contract T.spliced) {u | g.structural.Reads l [T.lhs] i j [u]}
        {u | T.Writes g.structural l [T.lhs] i j [u]} := by
  obtain ⟨o, d, hlowered⟩ := Lowered.exists_of_ofStatements h
  obtain ⟨f, hf, hadds⟩ := hlowered.exists_footprint hss
  obtain ⟨T, hT⟩ := hf.exists_tiers hlowered.orderly htiers
  refine ⟨T, f.name, hf.decode, ?_, hT.count, ?_, fun id => ?_, ?_, ?_⟩
  · exact hlowered.standsFor ⟨_, hf.decode, .structural (hT.lhs ▸ hf.structuralId?)⟩
  · exact hT.operators.imp fun _ _ hop => hop.mono fun _ _ => hlowered.standsFor
  · rw [hadds, Footprint.Has, hT.rules, hT.first]
  · rw [hT.first, ← hT.rules]
    exact hf.rule?
  · exact (hT.tiered hf hlowered hss htiers).bijOn_contract

/-- Letters and their powers, the letters being the tighter tier. -/
def Definition.powers : Definition :=
  ⟨[.prioritized "power" [[Alternative.ofItems ["'a'"]],
    [(Alternative.ofItems ["power", "'^'", "power"]).withAdverb "assoc" "right"]]], "powers"⟩

/-- Exponents may be powers, and bases may not. -/
theorem precedence_exact_powers :
    ∃ g, Grammar.ofStatements Definition.powers.statements "powers" = .ok g ∧
      ∃ T : Tiering, g.StandsFor "power" T.lhs ∧ T.count = 2 ∧
        T.operators.map (fun op => (op.tier, op.adverbs.associativity)) =
          [(0, .left), (1, .right)] ∧
        ∀ l i j, Set.BijOn (Tree.contract T.spliced) {u | g.structural.Reads l [T.lhs] i j [u]}
          {u | T.Writes g.structural l [T.lhs] i j [u]} := by
  have haccepted : (Grammar.ofStatements Definition.powers.statements "powers").toOption.any
      (fun _ => true) = true := by
    decide +kernel
  obtain ⟨g, hg, -⟩ := exists_eq_ok_of_any haccepted
  obtain ⟨T, name, -, hlhs, hcount, hoperators, -, -, hbij⟩ :=
    precedence_exact hg (List.nil_append _).symm (by decide)
  refine ⟨g, hg, T, hlhs, hcount, ?_, hbij⟩
  generalize T.operators = operators at hoperators
  obtain _ | ⟨hletter, hoperators⟩ := hoperators
  obtain _ | ⟨hpower, hoperators⟩ := hoperators
  obtain _ | _ := hoperators
  have hread : RuleAdverbs.read false [⟨"assoc", "right", 0⟩] =
      .ok ⟨none, .right, 0, none, false, false⟩ :=
    rfl
  have hnone : RuleAdverbs.read false [] = .ok ⟨none, .left, 0, none, false, false⟩ := rfl
  have hleft := Except.ok.inj (hletter.adverbs.symm.trans hnone)
  have hright := Except.ok.inj (hpower.adverbs.symm.trans hread)
  simp [hleft, hright, hletter.tier, hpower.tier]

end Scannerless
