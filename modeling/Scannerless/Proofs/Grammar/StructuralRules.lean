import Mathlib.Data.Option.Basic
import Mathlib.Data.List.Range
import Scannerless.Definition
import Scannerless.Proofs.Grammar.LexicalRules

/-!
# The rules of structural statements

An alternative without quantifiers becomes one rule. A sequence becomes the rules of its
name and of a symbol for its items, a definition in tiers those of its name and of a symbol
for each tier.

## Main definitions

- `Draft.PlainRule` — the rule of an alternative.
- `Draft.SequenceOf` — the symbols and adverbs of a sequence.
- `Draft.TierRule`, `Draft.TierRules` — the rule of an alternative of a tier, and those of all
  tiers.
- `Draft.Lowers` — the rules of a structural definition.

## Main statements

- `Drafting.sequence_run`, `Drafting.precedence_run` — sequences and tiers.
- `Drafting.structural_run` — a structural statement adds the rules of its definition.
-/

namespace Scannerless

/-- Whether an item is the name that is being defined. -/
def RhsItem.isOperand (name : String) (item : RhsItem) : Bool :=
  match Element.decode item.element with
  | .ok e => e == .name name
  | .error _ => false

namespace Draft

variable {o : Outline} {d d' : Draft} {T : SymbolId → Prop} {S L : List Rule} {lhs s : SymbolId}
  {name : String}

/-- The rule of an alternative has the symbols of its items. -/
def PlainRule (o : Outline) (d : Draft) (lhs : SymbolId) (name : String) (alt : Alternative)
    (r : Rule) : Prop :=
  ∃ adverbs rhs, RuleAdverbs.read false alt.adverbs = .ok adverbs ∧
    List.Forall₂ (fun item s => d.StandsFor o item.element s) alt.rhs rhs ∧
    r = alternativeRule lhs rhs name adverbs

/-- The rule of an alternative of a tier has the symbols of its items, operands apart. -/
def TierRule (o : Outline) (d : Draft) (lhs : SymbolId) (name : String)
    (current tighter : SymbolId) (alt : Alternative) (r : Rule) : Prop :=
  ∃ adverbs rhs, RuleAdverbs.read false alt.adverbs = .ok adverbs ∧
    List.Forall₂ (fun item s => d.StandsFor o item.element s) alt.rhs rhs ∧
    r = alternativeRule current
      (placeOperands adverbs.associativity lhs current tighter true
        (alt.rhs.map (RhsItem.isOperand name)) rhs) name adverbs

/-- The parts of a sequence belong to its item and its adverbs. -/
structure SequenceOf (o : Outline) (d : Draft) (name : String) (item : RhsItem)
    (alt : Alternative) (p : SequenceParts) : Prop where
  adverbs : RuleAdverbs.read true alt.adverbs = .ok p.adverbs
  element : d.StandsFor o item.element p.element
  separator : Option.Rel (fun written s => d.StandsFor o written.1 s) p.adverbs.separator
    p.separator
  items : d.symbols[p.items]? = some ⟨name ++ "[Seq]", .nonterminal⟩

theorem SequenceOf.exists_standsFor {item : RhsItem} {alt : Alternative} {p : SequenceParts}
    (h : d.SequenceOf o name item alt p) (hs : p.separator = some s) :
    ∃ raw, d.StandsFor o raw s := by
  have hrel := h.separator
  rw [hs] at hrel
  generalize p.adverbs.separator = written at hrel
  cases hrel with
  | some hstands => exact ⟨_, hstands⟩

/-- The rules of the tiers, given their symbols. The tightest tier is next to itself. -/
def TierRules (o : Outline) (d : Draft) (lhs : SymbolId) (name : String)
    (tiers : List (List Alternative)) (levels : List SymbolId) (rules : List (List Rule)) :
    Prop :=
  List.Forall₂ (fun x rs => List.Forall₂ (d.TierRule o lhs name x.2.1 x.2.2) x.1 rs)
    (tiers.zip (levels.zip (levels.take 1 ++ levels))) rules

/-- The rules of a structural definition, whose own symbols are those from `start` on and
    before `stop`. -/
inductive Lowers (o : Outline) (d : Draft) (start stop lhs : SymbolId) (name : String) :
    List (List Alternative) → List Rule → Prop where
  | plain {alternatives : List Alternative} {rules : List Rule}
      (hplain : ∀ alt ∈ alternatives, ∀ item ∈ alt.rhs, item.quantifier = .one)
      (h : List.Forall₂ (d.PlainRule o lhs name) alternatives rules) :
      Lowers o d start stop lhs name [alternatives] rules
  | sequence {alt : Alternative} {item : RhsItem} {p : SequenceParts} (hitem : alt.rhs = [item])
      (hq : item.quantifier = .star ∨ item.quantifier = .plus)
      (h : d.SequenceOf o name item alt p) (hstart : start ≤ p.items) (hstop : p.items < stop) :
      Lowers o d start stop lhs name [[alt]] (p.rules lhs name item.quantifier)
  | tiers {tiers : List (List Alternative)} {base : SymbolId} {rules : List (List Rule)}
      (htiers : tiers.length ≠ 1) (hstart : start ≤ base) (hstop : base + tiers.length ≤ stop)
      (h : d.TierRules o lhs name tiers (List.range' base tiers.length) rules) :
      Lowers o d start stop lhs name tiers
        (chainRules lhs name (List.range' base tiers.length) ++ rules.flatten)

theorem Grows.separator (h : d.Grows T S L d') {written : Option (String × Nat)}
    {separator : Option SymbolId}
    (hs : Option.Rel (fun x s => d.StandsFor o x.1 s) written separator) :
    Option.Rel (fun x s => d'.StandsFor o x.1 s) written separator := by
  cases hs with
  | none => exact .none
  | some hs => exact .some (h.standsFor hs)

theorem Grows.nonterminal (h : d.Grows T S L d') {text : String}
    (hs : d.symbols[s]? = some ⟨text, .nonterminal⟩) :
    d'.symbols[s]? = some ⟨text, .nonterminal⟩ :=
  h.symbol_eq hs nofun

theorem Grows.plainRule (h : d.Grows T S L d') {alt : Alternative} {r : Rule}
    (hr : d.PlainRule o lhs name alt r) : d'.PlainRule o lhs name alt r := by
  obtain ⟨adverbs, rhs, hadverbs, hrhs, rfl⟩ := hr
  exact ⟨adverbs, rhs, hadverbs, hrhs.imp fun _ _ => h.standsFor, rfl⟩

theorem Grows.tierRule (h : d.Grows T S L d') {current tighter : SymbolId} {alt : Alternative}
    {r : Rule} (hr : d.TierRule o lhs name current tighter alt r) :
    d'.TierRule o lhs name current tighter alt r := by
  obtain ⟨adverbs, rhs, hadverbs, hrhs, rfl⟩ := hr
  exact ⟨adverbs, rhs, hadverbs, hrhs.imp fun _ _ => h.standsFor, rfl⟩

theorem Grows.tierRules (h : d.Grows T S L d') {tiers : List (List Alternative)}
    {levels : List SymbolId} {rules : List (List Rule)}
    (hr : d.TierRules o lhs name tiers levels rules) :
    d'.TierRules o lhs name tiers levels rules :=
  hr.imp fun _ _ hrs => hrs.imp fun _ _ => h.tierRule

theorem Grows.lowers (h : d.Grows T S L d') {start stop : SymbolId}
    {tiers : List (List Alternative)} {rules : List Rule}
    (hr : d.Lowers o start stop lhs name tiers rules) :
    d'.Lowers o start stop lhs name tiers rules := by
  cases hr with
  | plain hplain hrules => exact .plain hplain (hrules.imp fun _ _ => h.plainRule)
  | sequence hitem hq hparts hstart hstop =>
    refine .sequence hitem hq ⟨hparts.adverbs, ?_, ?_, ?_⟩ hstart hstop
    · exact h.standsFor hparts.element
    · exact h.separator hparts.separator
    · exact h.nonterminal hparts.items
  | tiers htiers hstart hstop hrules => exact .tiers htiers hstart hstop (h.tierRules hrules)

/-- The rules of a structural definition are made of elements, of its name and of its own
    symbols. -/
theorem Lowers.rhs_cases {start stop : SymbolId} {tiers : List (List Alternative)}
    {rules : List Rule} (h : d.Lowers o start stop lhs name tiers rules) {r : Rule}
    (hr : r ∈ rules) (hs : s ∈ r.rhs) :
    (∃ raw, d.StandsFor o raw s) ∨ s = lhs ∨ start ≤ s ∧ s < stop := by
  have hitems {items : List RhsItem} {rhs : List SymbolId}
      (h : List.Forall₂ (fun item s => d.StandsFor o item.element s) items rhs) (hs : s ∈ rhs) :
      ∃ raw, d.StandsFor o raw s := by
    obtain ⟨item, -, hstands⟩ := exists_mem_of_forall₂ h.flip hs
    exact ⟨item.element, hstands⟩
  cases h with
  | plain _ hrules =>
    obtain ⟨alt, -, adverbs, rhs, -, hrhs, rfl⟩ := exists_mem_of_forall₂ hrules.flip hr
    exact Or.inl (hitems hrhs hs)
  | @sequence alt item p _ _ hp hstart hstop =>
    rcases SequenceParts.mem_of_mem_rhs hr hs with rfl | rfl | hseparator
    · exact Or.inr (Or.inr ⟨hstart, hstop⟩)
    · exact Or.inl ⟨_, hp.element⟩
    · exact Or.inl (hp.exists_standsFor hseparator)
  | @tiers _ base rules _ hstart hstop hrules =>
    have hlevel {x : SymbolId} (hx : x ∈ List.range' base tiers.length) : start ≤ x ∧ x < stop := by
      rw [List.mem_range'_1] at hx
      exact ⟨Nat.le_trans hstart hx.1, Nat.lt_of_lt_of_le hx.2 hstop⟩
    rcases List.mem_append.mp hr with hr | hr
    · obtain ⟨_, -, tier, htier, rfl⟩ := exists_of_mem_chainRules hr
      exact Or.inr (Or.inr (hlevel (List.mem_singleton.mp hs ▸ htier)))
    · obtain ⟨rs, hrs, hr⟩ := List.mem_flatten.mp hr
      obtain ⟨x, hx, htier⟩ := exists_mem_of_forall₂ hrules.flip hrs
      obtain ⟨alt, -, adverbs, rhs, -, hrhs, rfl⟩ := exists_mem_of_forall₂ htier.flip hr
      have hboth := (List.of_mem_zip (List.of_mem_zip hx).2)
      rcases mem_of_mem_placeOperands hs with hs | rfl | rfl | rfl
      · exact Or.inl (hitems hrhs hs)
      · exact Or.inr (Or.inl rfl)
      · exact Or.inr (Or.inr (hlevel hboth.1))
      · refine Or.inr (Or.inr (hlevel ?_))
        exact (List.mem_append.mp hboth.2).elim List.mem_of_mem_take id

end Draft

namespace Drafting

variable {o : Outline} {d d' : Draft} {s lhs : SymbolId} {name : String}

/-! ### Plain alternatives -/

theorem plainAlternative_run {alt : Alternative} {u : Unit}
    (h : (plainAlternative o lhs name alt).run d = .ok (u, d')) (hd : d.Orderly o)
    (hlhs : o.IsName lhs) :
    d'.Orderly o ∧ ∃ r L, d.Grows (· = lhs) [r] L d' ∧ d'.PlainRule o lhs name alt r ∧
      ∀ r ∈ L, d.symbols.size ≤ r.lhs := by
  obtain ⟨adverbs, d₁, hadverbs, h⟩ := run_bind.mp h
  obtain ⟨hread, rfl⟩ := run_lift.mp hadverbs
  obtain ⟨rhs, d₂, hrhs, h⟩ := run_bind.mp h
  obtain ⟨hd₂, hstands, L, hgains⟩ := structuralSymbols_run hrhs hd
  obtain ⟨hgrows, hd'⟩ :=
    addDeclared_run h hd₂ (hd₂.open_of_isName hlhs) (hd₂.lt_of_isName hlhs)
  refine ⟨hd', alternativeRule lhs rhs name adverbs, L, ?_, ?_, hgains.fresh⟩
  · have hboth := (hgains.mono fun _ hfalse => hfalse.elim).trans hgrows fun _ => Or.inl
    simpa [Level.pick, alternativeRule] using hboth
  · exact ⟨adverbs, rhs, hread, hstands.imp fun _ _ => hgrows.standsFor, rfl⟩

/-! ### Sequences -/

/-- Rules are added one after the other. -/
theorem grows_structural_of_orderly {rs : List Rule} (hd : d.Orderly o)
    {T : SymbolId → Prop} (hT : ∀ r ∈ rs, T r.lhs) (hopen : ∀ s, T s → d.Open s)
    (hlt : ∀ r ∈ rs, r.lhs < d.symbols.size) :
    let d' : Draft := { d with structural := d.structural ++ rs.toArray }
    d.Grows T rs [] d' ∧ d'.Orderly o := by
  have hgrows := grows_structural (d := d) hT hlt
  exact ⟨hgrows, hd.of_grows_eq hgrows hopen rfl rfl⟩

/-- The separator of a sequence is an element like its items. -/
theorem separator_run {written : Option (String × Nat)} {separator : Option SymbolId}
    (h : (written.mapM fun x => structuralSymbol o x.1 x.2).run d = .ok (separator, d'))
    (hd : d.Orderly o) :
    d'.Orderly o ∧ Option.Rel (fun x s => d'.StandsFor o x.1 s) written separator ∧
      ∃ L, d.Gains L d' := by
  cases written with
  | none =>
    obtain ⟨rfl, rfl⟩ := run_pure.mp h
    exact ⟨hd, .none, [], .refl d _⟩
  | some x =>
    replace h : (structuralSymbol o x.1 x.2 >>= fun s => pure (some s)).run d =
      .ok (separator, d') := h
    obtain ⟨s, d₁, hsymbol, h⟩ := run_bind.mp h
    obtain ⟨rfl, rfl⟩ := run_pure.mp h
    obtain ⟨hd₁, hstands, hgains⟩ := structuralSymbol_run hsymbol hd
    exact ⟨hd₁, .some hstands, hgains⟩

/-- The symbols of a sequence are found or made before its rules are added: those of its item
    and its separator, and one for the list of its items. -/
theorem sequenceParts_run {item : RhsItem} {alt : Alternative} {u : Unit}
    (h : (sequence o lhs name item alt).run d = .ok (u, d')) (hd : d.Orderly o) :
    ∃ p L e, d.Gains L e ∧ e.Orderly o ∧ e.SequenceOf o name item alt p ∧
      d.symbols.size ≤ p.items ∧
      d' = { e with structural := e.structural ++ (p.rules lhs name item.quantifier).toArray } := by
  rw [sequence_eq] at h
  obtain ⟨adverbs, d₀, hadverbs, h⟩ := run_bind.mp h
  obtain ⟨hread, rfl⟩ := run_lift.mp hadverbs
  obtain ⟨element, d₁, helement, h⟩ := run_bind.mp h
  obtain ⟨separator, d₂, hseparator, h⟩ := run_bind.mp h
  obtain ⟨items, d₃, hitems, h⟩ := run_bind.mp h
  obtain ⟨hd₁, helement, L₁, hgains₁⟩ := structuralSymbol_run helement hd
  obtain ⟨hd₂, hseparator, L₂, hgains₂⟩ := separator_run hseparator hd₁
  obtain ⟨rfl, -, hsymbol, hgains₃, hd₃⟩ := addSymbol_grows hitems hd₂
  have hsymbols := hgains₂.trans hgains₃
  refine ⟨⟨adverbs, element, separator, d₂.symbols.size⟩, _, d₃, hgains₁.trans hsymbols, hd₃,
    ⟨hread, hsymbols.standsFor helement, hgains₃.separator hseparator, hsymbol⟩,
    (hgains₁.trans hgains₂).size_le, ?_⟩
  exact addRules_run h

/-- A sequence adds the rules of its parts. -/
theorem sequence_run {item : RhsItem} {alt : Alternative} {u : Unit}
    (h : (sequence o lhs name item alt).run d = .ok (u, d')) (hd : d.Orderly o)
    (hlhs : o.IsName lhs) :
    d'.Orderly o ∧ ∃ p L, d.Grows (· = lhs) (p.rules lhs name item.quantifier) L d' ∧
      d'.SequenceOf o name item alt p ∧ d.symbols.size ≤ p.items ∧
      ∀ r ∈ L, d.symbols.size ≤ r.lhs := by
  obtain ⟨p, L, e, hgains, he, hparts, hnew, rfl⟩ := sequenceParts_run h hd
  -- The rules are those of the name and of the new symbol.
  have hlhss : ∀ r ∈ p.rules lhs name item.quantifier, r.lhs = lhs ∨ r.lhs = p.items :=
    fun r => SequenceParts.lhs_of_mem_rules
  have hopen : ∀ s, s = lhs ∨ s = p.items → e.Open s := by
    rintro s (rfl | rfl)
    · exact he.open_of_isName hlhs
    · exact he.open_of_kind? (by simp [Draft.kind?, hparts.items])
  have hlt : ∀ r ∈ p.rules lhs name item.quantifier, r.lhs < e.symbols.size := by
    intro r hr
    rcases hlhss r hr with hr | hr
    · exact hr ▸ he.lt_of_isName hlhs
    · exact hr ▸ Draft.lt_of_symbol hparts.items
  obtain ⟨hgrows, hd'⟩ := grows_structural_of_orderly he
    (T := fun s => s = lhs ∨ s = p.items) hlhss hopen hlt
  have hown : ∀ s, s = lhs ∨ s = p.items → s = lhs ∨ d.symbols.size ≤ s := by
    rintro s (rfl | rfl)
    · exact Or.inl rfl
    · exact Or.inr hnew
  have hall := (hgains.mono fun _ hfalse => hfalse.elim).trans hgrows hown
  refine ⟨hd', p, L, by simpa using hall, ⟨hparts.adverbs, ?_, ?_, ?_⟩, hnew, hgains.fresh⟩
  · exact hgrows.standsFor hparts.element
  · exact hgrows.separator hparts.separator
  · exact hgrows.nonterminal hparts.items

/-! ### Tiers -/

theorem decodeAll_run {items : List RhsItem} {elements : List Element}
    (h : (items.mapM fun item => (liftM (Element.decodeAt item.element item.offset) :
      Drafting Element)).run d = .ok (elements, d')) :
    d' = d ∧ elements.map (· == Element.name name) = items.map (RhsItem.isOperand name) := by
  apply mapM_induction (P := fun items elements e => e = d ∧
    elements.map (· == Element.name name) = items.map (RhsItem.isOperand name)) h
  · exact ⟨rfl, rfl⟩
  rintro items elements item element e e' - ⟨rfl, hmap⟩ hrun
  obtain ⟨hdecode, rfl⟩ := run_lift.mp hrun
  rw [Element.decodeAt_eq_ok] at hdecode
  refine ⟨rfl, ?_⟩
  rw [List.map_append, List.map_append, hmap]
  simp [RhsItem.isOperand, hdecode]

/-- An alternative of a tier adds its rule. -/
theorem tierAlternative_run {current tighter : SymbolId} {alt : Alternative} {u : Unit}
    (h : (tierAlternative o lhs name current tighter alt).run d = .ok (u, d'))
    (hd : d.Orderly o) (hcurrent : d.kind? current = some .nonterminal) :
    d'.Orderly o ∧ ∃ r L, d.Grows (· = current) [r] L d' ∧
      d'.TierRule o lhs name current tighter alt r ∧ ∀ r ∈ L, d.symbols.size ≤ r.lhs := by
  rw [tierAlternative] at h
  split at h
  · exact absurd h run_refuse
  obtain ⟨adverbs, d₀, hadverbs, helements⟩ := run_bind.mp h
  obtain ⟨hread, rfl⟩ := run_lift.mp hadverbs
  obtain ⟨elements, d₁, helements, hrhs⟩ := run_bind.mp helements
  obtain ⟨rfl, hoperands⟩ : d₁ = d ∧
      elements.map (· == Element.name name) = alt.rhs.map (RhsItem.isOperand name) :=
    decodeAll_run helements
  obtain ⟨rhs, d₂, hrhs, hadd⟩ := run_bind.mp hrhs
  obtain ⟨hd₂, hstands, L, hgains⟩ := structuralSymbols_run hrhs hd
  have hkind : d₂.kind? current = some .nonterminal := hgains.kind?_nonterminal hcurrent
  obtain ⟨hgrows, hd'⟩ := addDeclared_run hadd hd₂ (hd₂.open_of_kind? (by simp [hkind]))
    (Draft.lt_of_kind? hkind)
  rw [hoperands] at hgrows
  refine ⟨hd', _, L, ?_, ⟨adverbs, rhs, hread, ?_, rfl⟩, hgains.fresh⟩
  · have hboth := (hgains.mono fun _ hfalse => hfalse.elim).trans hgrows fun _ => Or.inl
    simpa [Level.pick, alternativeRule] using hboth
  · exact hstands.imp fun _ _ => hgrows.standsFor

theorem tierAlternatives_run {current tighter : SymbolId} {alternatives : List Alternative}
    {u : Unit}
    (h : (alternatives.forM (tierAlternative o lhs name current tighter)).run d = .ok (u, d'))
    (hd : d.Orderly o) (hcurrent : d.kind? current = some .nonterminal) :
    d'.Orderly o ∧ ∃ rules L, d.Grows (· = current) rules L d' ∧
      List.Forall₂ (d'.TierRule o lhs name current tighter) alternatives rules ∧
      ∀ r ∈ L, d.symbols.size ≤ r.lhs := by
  apply forM_induction (P := fun alternatives e => e.Orderly o ∧
    ∃ rules L, d.Grows (· = current) rules L e ∧
      List.Forall₂ (e.TierRule o lhs name current tighter) alternatives rules ∧
      ∀ r ∈ L, d.symbols.size ≤ r.lhs) h
  · exact ⟨hd, [], [], .refl d _, .nil, by simp⟩
  rintro alternatives alt e e' - ⟨he, rules, L, hgrows, hrules, hfresh⟩ hrun
  obtain ⟨he', r, L', hgrows', hrule, hfresh'⟩ :=
    tierAlternative_run hrun he (hgrows.kind?_nonterminal hcurrent)
  refine ⟨he', rules ++ [r], L ++ L', hgrows.trans hgrows' fun _ => Or.inl, ?_,
    hgrows.fresh_append hfresh hfresh'⟩
  exact List.rel_append (hrules.imp fun _ _ => hgrows'.tierRule) (.cons hrule .nil)

/-- The symbols of the tiers are new and follow one another. -/
theorem levels_run {count offset : Nat} {levels : List SymbolId}
    (h : ((List.range count).mapM fun p =>
      addSymbol (name ++ "[" ++ toString p ++ "]") .nonterminal offset).run d = .ok (levels, d'))
    (hd : d.Orderly o) :
    d'.Orderly o ∧ d.Gains [] d' ∧ levels = List.range' d.symbols.size count ∧
      (∀ s ∈ levels, d'.kind? s = some .nonterminal) ∧
      d'.symbols.size = d.symbols.size + count := by
  have hloop : d'.Orderly o ∧ d.Gains [] d' ∧
      levels = List.range' d.symbols.size (List.range count).length ∧
      (∀ s ∈ levels, d'.kind? s = some .nonterminal) ∧
      d'.symbols.size = d.symbols.size + (List.range count).length := by
    apply mapM_induction (P := fun ps levels e => e.Orderly o ∧ d.Gains [] e ∧
      levels = List.range' d.symbols.size ps.length ∧
      (∀ s ∈ levels, e.kind? s = some .nonterminal) ∧
      e.symbols.size = d.symbols.size + ps.length) h
    · exact ⟨hd, .refl d _, rfl, by simp, rfl⟩
    rintro ps levels p s e e' - ⟨he, hgains, rfl, hkinds, hsize⟩ hrun
    obtain ⟨rfl, hsize', hsymbol, hgains', he'⟩ := addSymbol_grows hrun he
    refine ⟨he', hgains.trans hgains', ?_, ?_, ?_⟩
    · rw [List.length_append, List.length_singleton, List.range'_concat, Nat.one_mul, hsize]
    · intro s hs
      rcases List.mem_append.mp hs with hs | hs
      · exact hgains'.kind?_nonterminal (hkinds s hs)
      · rw [List.mem_singleton.mp hs, Draft.kind?, hsymbol]
        rfl
    · rw [hsize', hsize, List.length_append, List.length_singleton, Nat.add_assoc]
  rwa [List.length_range] at hloop

/-- The alternatives of all tiers add their rules, tier by tier. -/
theorem tierRules_run {T : SymbolId → Prop} {xs : List (List Alternative × SymbolId × SymbolId)}
    {u : Unit}
    (h : (xs.forM fun x => x.1.forM (tierAlternative o lhs name x.2.1 x.2.2)).run d = .ok (u, d'))
    (hd : d.Orderly o) (hkinds : ∀ x ∈ xs, d.kind? x.2.1 = some .nonterminal)
    (hT : ∀ x ∈ xs, T x.2.1) :
    d'.Orderly o ∧ ∃ rules L, d.Grows T rules.flatten L d' ∧
      List.Forall₂ (fun x rs => List.Forall₂ (d'.TierRule o lhs name x.2.1 x.2.2) x.1 rs) xs
        rules ∧ ∀ r ∈ L, d.symbols.size ≤ r.lhs := by
  apply forM_induction (P := fun xs e => e.Orderly o ∧
    ∃ rules L, d.Grows T rules.flatten L e ∧
      List.Forall₂ (fun x rs => List.Forall₂ (e.TierRule o lhs name x.2.1 x.2.2) x.1 rs) xs
        rules ∧ ∀ r ∈ L, d.symbols.size ≤ r.lhs) h
  · exact ⟨hd, [], [], .refl d _, .nil, by simp⟩
  rintro xs x e e' hx ⟨he, rules, L, hgrows, hrules, hfresh⟩ hrun
  obtain ⟨he', rs, L', hgrows', hrs, hfresh'⟩ :=
    tierAlternatives_run hrun he (hgrows.kind?_nonterminal (hkinds x hx))
  refine ⟨he', rules ++ [rs], L ++ L', ?_, ?_, hgrows.fresh_append hfresh hfresh'⟩
  · have hboth := hgrows.trans hgrows' fun s hs => Or.inl (hs ▸ hT x hx)
    simpa using hboth
  · exact List.rel_append
      (hrules.imp fun _ _ hrs => hrs.imp fun _ _ => hgrows'.tierRule) (.cons hrs .nil)

/-- A definition in tiers adds the rules that lead to its tiers and those of their
    alternatives. -/
theorem precedence_run {tiers : List (List Alternative)} {u : Unit}
    (h : (precedence o lhs name tiers).run d = .ok (u, d')) (hd : d.Orderly o)
    (hlhs : o.IsName lhs) :
    d'.Orderly o ∧ ∃ base rules L, d.symbols.size ≤ base ∧
      base + tiers.length ≤ d'.symbols.size ∧
      d.Grows (· = lhs)
        (Draft.chainRules lhs name (List.range' base tiers.length) ++ rules.flatten) L d' ∧
      d'.TierRules o lhs name tiers (List.range' base tiers.length) rules ∧
      ∀ r ∈ L, d.symbols.size ≤ r.lhs := by
  rw [precedence_eq] at h
  obtain ⟨d₀, d₀, hget, h⟩ := run_bind.mp h
  obtain ⟨rfl, rfl⟩ := run_get.mp hget
  obtain ⟨levels, d₁, hlevels, h⟩ := run_bind.mp h
  obtain ⟨_, d₂, hchain, h⟩ := run_bind.mp h
  obtain ⟨hd₁, hgains, hrange, hkinds, hsize⟩ := levels_run hlevels hd
  have hchains : d₁.Grows (fun s => s = lhs ∨ s ∈ levels) (Draft.chainRules lhs name levels) [] d₂ ∧
      d₂.Orderly o := by
    obtain rfl := addRules_run hchain
    refine grows_structural_of_orderly hd₁ (fun r hr => ?_) ?_ fun r hr => ?_
    · obtain ⟨s, hs, _, -, rfl⟩ := Draft.exists_of_mem_chainRules hr
      exact hs
    · rintro s (rfl | hs)
      · exact hd₁.open_of_isName hlhs
      · exact hd₁.open_of_kind? (by simp [hkinds s hs])
    · obtain ⟨s, rfl | hs, _, -, rfl⟩ := Draft.exists_of_mem_chainRules hr
      · exact hd₁.lt_of_isName hlhs
      · exact Draft.lt_of_kind? (hkinds s hs)
  obtain ⟨hchains, hd₂⟩ := hchains
  have hlevel : ∀ x ∈ tiers.zip (levels.zip (levels.take 1 ++ levels)), x.2.1 ∈ levels :=
    fun x hx => (List.of_mem_zip (List.of_mem_zip hx).2).1
  obtain ⟨hd', rules, L, hgrows, hrules, hfresh⟩ := tierRules_run (T := (· ∈ levels)) h hd₂
    (fun x hx => hchains.kind?_nonterminal (hkinds _ (hlevel x hx))) hlevel
  have hall := hchains.trans hgrows fun s hs => Or.inl (Or.inr hs)
  have hown : ∀ s, s = lhs ∨ s ∈ levels → s = lhs ∨ d.symbols.size ≤ s := by
    rintro s (rfl | hs)
    · exact Or.inl rfl
    · rw [hrange, List.mem_range'_1] at hs
      exact Or.inr hs.1
  have hafter : d.symbols.size + tiers.length ≤ d'.symbols.size := hsize ▸ hall.size_le
  have hbefore := Nat.le_trans hgains.size_le hchains.size_le
  obtain rfl := hrange
  refine ⟨hd', d.symbols.size, rules, L, Nat.le_refl _, hafter, ?_, hrules,
    fun r hr => Nat.le_trans hbefore (hfresh r hr)⟩
  simpa using (hgains.mono fun _ hfalse => hfalse.elim).trans hall hown

/-! ### Definitions -/

theorem plainAlternatives_run {alternatives : List Alternative} {u : Unit} {alone : Bool}
    (h : (alternatives.forM (alternative o lhs name alone)).run d = .ok (u, d'))
    (hplain : ∀ alt ∈ alternatives, alt.rhs.find? (fun item => item.quantifier != .one) = none)
    (hd : d.Orderly o) (hlhs : o.IsName lhs) :
    d'.Orderly o ∧ ∃ rules L, d.Grows (· = lhs) rules L d' ∧
      List.Forall₂ (d'.PlainRule o lhs name) alternatives rules ∧
      ∀ r ∈ L, d.symbols.size ≤ r.lhs := by
  apply forM_induction (P := fun alternatives e => e.Orderly o ∧
    ∃ rules L, d.Grows (· = lhs) rules L e ∧
      List.Forall₂ (e.PlainRule o lhs name) alternatives rules ∧
      ∀ r ∈ L, d.symbols.size ≤ r.lhs) h
  · exact ⟨hd, [], [], .refl d _, .nil, by simp⟩
  rintro alternatives alt e e' hmem ⟨he, rules, L, hgrows, hrules, hfresh⟩ hrun
  rw [alternative, hplain alt hmem] at hrun
  obtain ⟨he', r, L', hgrows', hrule, hfresh'⟩ := plainAlternative_run hrun he hlhs
  refine ⟨he', rules ++ [r], L ++ L', hgrows.trans hgrows' fun _ => Or.inl, ?_,
    hgrows.fresh_append hfresh hfresh'⟩
  exact List.rel_append (hrules.imp fun _ _ => hgrows'.plainRule) (.cons hrule .nil)

/-- A loop of steps can only run if each of them can, whatever came before. -/
theorem exists_run_of_mem {α : Type} {xs : List α} {f : α → Drafting Unit} {u : Unit} {x : α}
    (h : (xs.forM f).run d = .ok (u, d')) (hx : x ∈ xs) :
    ∃ e e', (f x).run e = .ok ((), e') := by
  induction xs generalizing d with
  | nil => cases hx
  | cons y ys ih =>
    replace h : (f y >>= fun _ => ys.forM f).run d = .ok (u, d') := h
    obtain ⟨_, d₁, hy, hys⟩ := run_bind.mp h
    rcases List.mem_cons.mp hx with rfl | hx
    · exact ⟨d, d₁, hy⟩
    · exact ih hys hx

/-- An alternative with a quantifier is the only one of its definition, and a sequence. -/
theorem quantified_alternative_run {alone : Bool} {alt : Alternative} {item : RhsItem} {u : Unit}
    (h : (alternative o lhs name alone alt).run d = .ok (u, d'))
    (hitem : alt.rhs.find? (fun item => item.quantifier != .one) = some item) :
    alone = true ∧ alt.rhs = [item] ∧ (item.quantifier = .star ∨ item.quantifier = .plus) ∧
      (sequence o lhs name item alt).run d = .ok (u, d') := by
  rw [alternative, hitem] at h
  simp only at h
  split at h
  next hcond =>
    obtain ⟨hlength, hoptional, halone⟩ := hcond
    obtain ⟨x, hx⟩ := List.length_eq_one_iff.mp hlength
    have hmem := List.mem_of_find?_eq_some hitem
    have hquantified : item.quantifier ≠ .one := by
      simpa using List.find?_some hitem
    rw [hx, List.mem_singleton] at hmem
    subst hmem
    refine ⟨halone, hx, ?_, h⟩
    cases hq : item.quantifier with
    | one => exact absurd hq hquantified
    | optional => exact absurd hq hoptional
    | star => exact Or.inl rfl
    | plus => exact Or.inr rfl
  next => exact absurd h run_refuse

/-- The alternatives of a definition without tiers add their rules, or those of a sequence. -/
theorem alternatives_run {alternatives : List Alternative} {u : Unit}
    (h : (alternatives.forM (alternative o lhs name (alternatives.length == 1))).run d =
      .ok (u, d')) (hd : d.Orderly o) (hlhs : o.IsName lhs) :
    d'.Orderly o ∧ ∃ rules L, d.Grows (· = lhs) rules L d' ∧
      d'.Lowers o d.symbols.size d'.symbols.size lhs name [alternatives] rules ∧
      ∀ r ∈ L, d.symbols.size ≤ r.lhs := by
  by_cases hplain : ∀ alt ∈ alternatives,
      alt.rhs.find? (fun item => item.quantifier != .one) = none
  · obtain ⟨hd', rules, L, hgrows, hrules, hfresh⟩ := plainAlternatives_run h hplain hd hlhs
    refine ⟨hd', rules, L, hgrows, .plain ?_ hrules, hfresh⟩
    intro alt halt item hitem
    simpa using List.find?_eq_none.mp (hplain alt halt) item hitem
  · push Not at hplain
    obtain ⟨alt, hmem, hfind⟩ := hplain
    obtain ⟨item, hitem⟩ := Option.ne_none_iff_exists'.mp hfind
    -- An alternative with a quantifier is the only one.
    obtain ⟨e, e', hrun⟩ := exists_run_of_mem h hmem
    obtain ⟨halone, hrhs, hq, -⟩ := quantified_alternative_run hrun hitem
    obtain ⟨x, rfl⟩ := List.length_eq_one_iff.mp (eq_of_beq halone)
    obtain rfl := List.mem_singleton.mp hmem
    replace h : (alternative o lhs name ([alt].length == 1) alt >>= fun _ =>
      pure ()).run d = .ok (u, d') := h
    obtain ⟨_, d₁, hrun, hpure⟩ := run_bind.mp h
    obtain ⟨-, rfl⟩ := run_pure.mp hpure
    obtain ⟨-, -, -, hsequence⟩ := quantified_alternative_run hrun hitem
    obtain ⟨hd', p, L, hgrows, hparts, hnew, hfresh⟩ := sequence_run hsequence hd hlhs
    have hlt := Draft.lt_of_symbol hparts.items
    exact ⟨hd', _, L, hgrows, .sequence hrhs hq hparts hnew hlt, hfresh⟩

/-- A structural statement adds the rules of its definition. -/
theorem structural_run {spelling : String} {tiers : List (List Alternative)} {offset : Nat}
    {u : Unit} (h : (structural o spelling tiers offset).run d = .ok (u, d'))
    (hd : d.Orderly o) :
    ∃ name, Element.decode spelling = .ok (.name name) ∧ d'.Orderly o ∧
      ((o.structuralId? name = none ∧ d' = d) ∨
        ∃ lhs rules L, o.structuralId? name = some lhs ∧ d.Grows (· = lhs) rules L d' ∧
          d'.Lowers o d.symbols.size d'.symbols.size lhs name tiers rules ∧
          ∀ r ∈ L, d.symbols.size ≤ r.lhs) := by
  obtain ⟨name, d₀, hdecode, hrest⟩ := run_bind.mp h
  clear h
  obtain ⟨hname, rfl⟩ := run_lift.mp hdecode
  rw [Element.decodeNameAt_eq_ok] at hname
  refine ⟨name, hname, ?_⟩
  split at hrest
  next hnone =>
    obtain ⟨-, rfl⟩ := run_pure.mp hrest
    exact ⟨hd, Or.inl ⟨hnone, rfl⟩⟩
  next lhs hid =>
    have hlhs := Outline.isName_of_structuralId? hid
    split at hrest
    next alternatives =>
      obtain ⟨hd', rules, L, hrules⟩ := alternatives_run hrest hd hlhs
      exact ⟨hd', Or.inr ⟨lhs, rules, L, hid, hrules⟩⟩
    next hlength =>
      obtain ⟨hd', base, rules, L, hbase, hstop, hgrows, hrules, hfresh⟩ :=
        precedence_run hrest hd hlhs
      refine ⟨hd', Or.inr ⟨lhs, _, L, hid, hgrows, .tiers ?_ hbase hstop hrules, hfresh⟩⟩
      intro hone
      obtain ⟨alternatives, rfl⟩ := List.length_eq_one_iff.mp hone
      exact hlength alternatives rfl

end Drafting

end Scannerless
