import Scannerless.Proofs.Grammar.Authorship
import Scannerless.Proofs.Recognition.Parts

/-!
# Operands in tiers

Where an alternative of a tier keeps an operand to the tighter tiers, the alternative on top of
the operand is of one of these. The first tier has none that are tighter: there an operand is
kept to the first tier itself, and being left or right makes no difference to the rule.

## Main definitions

- `Tiering.Of` — a tiering is that of a definition.
- `Associativity.Restricts` — the operands that are to have a tighter tier on top.
- `Tiering.Nests` — in a tree they do not have the tier of their alternative on top.

## Main statements

- `Lowered.exists_tiering` — a definition in tiers has a tiering.
- `RuleTable.Tiered.nests` — operands nest in all tiers but the first.
- `RuleTable.Tiered.tier?_of_first` — the operands of the first tier.
-/

namespace Scannerless

/-- A tiering is that of a definition, which stands behind some statements. -/
structure Tiering.Of (ss before : List Statement) (spelling : String)
    (tiers : List (List Alternative)) (offset : Nat) (g : Grammar) (T : Tiering) : Prop where
  lhs : g.StandsFor spelling T.lhs
  count : T.count = tiers.length
  operators : List.Forall₂ (Operator.Of g.StandsFor) (tierAlternatives tiers) T.operators
  rules : ∃ name, Element.decode spelling = .ok (.name name) ∧
    (∀ id, Statement.Adds ss before (.structural spelling tiers offset) id ↔
      T.first ≤ id ∧ id < T.first + (T.rules name).length) ∧
    ∀ k r, (T.rules name)[k]? = some r → g.structural.rule? (T.first + k) = some r

/-- A definition in tiers has a tiering. -/
theorem Lowered.exists_tiering {ss before after : List Statement} {spelling : String}
    {tiers : List (List Alternative)} {offset : Nat} {g : Grammar} {o : Outline} {d : Draft}
    (h : Lowered ss g o d) (hss : ss = before ++ .structural spelling tiers offset :: after)
    (htiers : 2 ≤ tiers.length) :
    ∃ (f : Footprint) (T : Tiering), f.LeftBy before after spelling tiers g o d ∧
      f.Tiers tiers o d T ∧ g.structural.Tiered T ∧ T.Of ss before spelling tiers offset g := by
  obtain ⟨f, hf, hadds⟩ := h.exists_footprint hss
  obtain ⟨T, hT⟩ := hf.exists_tiers h.orderly htiers
  refine ⟨f, T, hf, hT, hT.tiered hf h hss htiers, ?_, hT.count, ?_, f.name, hf.decode,
    fun id => ?_, ?_⟩
  · exact h.standsFor ⟨_, hf.decode, .structural (hT.lhs ▸ hf.structuralId?)⟩
  · exact hT.operators.imp fun _ _ hop => hop.mono fun _ _ => h.standsFor
  · rw [hadds, Footprint.Has, hT.rules, hT.first]
  · rw [hT.first, ← hT.rules]
    exact hf.rule?

namespace Tiering

variable {ss before : List Statement} {spelling : String} {tiers : List (List Alternative)}
  {offset : Nat} {g : Grammar} {T : Tiering}

/-- A definition in tiers of a grammar has a tiering. -/
theorem exists_of {after : List Statement} {description : String}
    (h : Grammar.ofStatements ss description = .ok g)
    (hss : ss = before ++ .structural spelling tiers offset :: after)
    (htiers : 2 ≤ tiers.length) : ∃ T : Tiering, T.Of ss before spelling tiers offset g := by
  obtain ⟨o, d, hlowered⟩ := Lowered.exists_of_ofStatements h
  obtain ⟨-, T, -, -, -, hof⟩ := hlowered.exists_tiering hss htiers
  exact ⟨T, hof⟩

/-- The name of a definition has its symbol. -/
theorem Of.findSymbol?_eq (h : T.Of ss before spelling tiers offset g) {name : String}
    (hname : Element.decode spelling = .ok (.name name)) : g.findSymbol? name = some T.lhs :=
  (Grammar.standsFor_name_iff hname).mp h.lhs

/-- The alternatives have rules in the order in which they are written. -/
theorem Of.exists_operator (h : T.Of ss before spelling tiers offset g) {k : Nat}
    {x : Nat × Alternative} (hx : (tierAlternatives tiers)[k]? = some x) :
    ∃ op, T.operator? (T.first + T.count + k) = some op ∧ Operator.Of g.StandsFor x op := by
  obtain ⟨hk, rfl⟩ := List.getElem?_eq_some_iff.mp hx
  have hk' : k < T.operators.length := h.operators.length_eq ▸ hk
  exact ⟨T.operators[k], operator?_add.trans (List.getElem?_eq_getElem hk'),
    h.operators.get hk hk'⟩

/-- The rules of a definition are among those of the grammar. -/
theorem Of.size_le (h : T.Of ss before spelling tiers offset g) (hpos : 0 < T.count) :
    T.first + (T.count + T.operators.length) ≤ g.structural.rules.size := by
  obtain ⟨name, -, -, hrule⟩ := h.rules
  have hlength : (T.rules name).length = T.count + T.operators.length := length_rules
  have hlt : T.count + T.operators.length - 1 < (T.rules name).length := by omega
  have hsize : T.first + (T.count + T.operators.length - 1) < g.structural.rules.size :=
    (Array.getElem?_eq_some_iff.mp (hrule _ _ (List.getElem?_eq_getElem hlt))).1
  simp only [RuleId] at hsize ⊢
  omega

/-- The first of the rules is spliced. -/
theorem Of.isSplice_first (h : T.Of ss before spelling tiers offset g) (hpos : 0 < T.count) :
    g.structural.isSplice T.first = true := by
  obtain ⟨name, -, -, hrule⟩ := h.rules
  have hfirst : g.structural.rule? T.first = some (T.splice name 0) :=
    hrule 0 _ (rules_of_lt hpos)
  rw [RuleTable.isSplice_eq hfirst, isSplice_splice]

end Tiering

/-- The operands that are to have a tighter tier on top: for `left` all but the first one, for
    `right` all but the last one. -/
def Associativity.Restricts (a : Associativity) (place count : Nat) : Prop :=
  match a with
  | .left => place ≠ 0
  | .right => place + 1 ≠ count
  | .group => False

theorem Associativity.Restricts.limit? {a : Associativity} {tier place count : Nat}
    (h : a.Restricts place count) : a.limit? tier place count = some (tier - 1) := by
  cases a with
  | left => exact congrArg some (if_neg h)
  | right => exact congrArg some (if_neg h)
  | group => exact h.elim

namespace Tiering

variable {T : Tiering} {a : Associativity} {isFirst : Bool} {rhs : List SymbolId} {op : Operator}

/-- In a tree no operand that is to have a tighter tier on top has that of its alternative,
    which is the given one. -/
def Nests (T : Tiering) (p : Nat) (tree : Tree) : Prop :=
  ∀ id i j us op k u, tree.HasPart (.node id i j us) → T.operator? id = some op → op.tier = p →
    (T.operands op.rhs (Tree.contractAll T.spliced us))[k]? = some u →
    op.adverbs.associativity.Restricts k
      (T.operands op.rhs (Tree.contractAll T.spliced us)).length →
    T.tier? u ≠ some p

/-- All operands of an alternative of the first tier have its symbol, on whichever side the
    alternative nests. -/
theorem placed_first (ha : a ≠ .group) :
    T.placed a 0 isFirst rhs = rhs.map fun s => if s = T.lhs then T.level 0 else s := by
  induction rhs generalizing isFirst with
  | nil => rfl
  | cons s rhs ih =>
    by_cases hs : s = T.lhs
    · subst hs
      have hoperand (first last : Bool) :
          a.operand T.lhs (T.level 0) (T.level (0 - 1)) first last = T.level 0 := by
        cases a with
        | left => exact ite_self _
        | right => exact ite_self _
        | group => exact absurd rfl ha
      rw [placed_cons_lhs, hoperand, ih, List.map_cons, if_pos rfl]
    · rw [placed_cons_of_ne hs, ih, List.map_cons, if_neg hs]

theorem rhsOf_first (hop : op.tier = 0) (ha : op.adverbs.associativity ≠ .group) :
    T.rhsOf op = op.rhs.map fun s => if s = T.lhs then T.level 0 else s := by
  rw [rhsOf, hop]
  exact placed_first ha

end Tiering

namespace RuleTable.Tiered

variable {t : RuleTable} {T : Tiering} {l : Lattice} {ss : List SymbolId} {i j k : Nat}
  {id : RuleId} {op : Operator} {us ts : List Tree} {u tree : Tree}

theorem hasRules_lhs (h : t.Tiered T) : t.hasRules T.lhs = true :=
  h.indexed.hasRules_of_lhs ((h.name T.first).mpr rfl)

theorem hasRules_level (h : t.Tiered T) {p : Nat} (hp : p < T.count) :
    t.hasRules (T.level p) = true := by
  by_contra hnone
  exact h.not_isLevel (Bool.eq_false_iff.mpr hnone) (Tiering.isLevel_level hp)

/-- The operands of an alternative have tiers on top that its associativity allows. -/
theorem fits (h : t.Tiered T) (hop : T.operator? id = some op)
    (hus : t.Reads l (t.rhs id) i j us) : T.Fits op (Tree.contractAll T.spliced us) := by
  obtain ⟨hp, -, hrhs, hlevels⟩ := h.operator id op hop
  have hlength : op.rhs.length = (Tree.contractAll T.spliced us).length := by
    have hmap := congrArg List.length (Tiering.map_written_rhsOf hp h.lhs hlevels)
    rw [List.length_map] at hmap
    rw [Tree.length_contractAll, hus.length_eq, hrhs, hmap]
  have hwithin := (h.contracts hus).2
  rwa [hrhs, Tiering.fits_iff hp h.lhs hlevels hlength] at hwithin

/-- Operands nest as the associativity says in all tiers but the first. -/
theorem nests (h : t.Tiered T) (hts : t.Reads l ss i j ts) (htree : tree ∈ ts) {p : Nat}
    (hp : 0 < p) : T.Nests p tree := by
  intro id i' j' us op k u hpart hop htier hu hrestricts
  obtain ⟨q, hq, hle⟩ :=
    h.fits hop (hts.rhs_of_hasPart htree hpart) k u _ hu hrestricts.limit?
  rw [hq, ne_eq, Option.some_inj]
  rintro rfl
  rw [htier] at hle
  exact Nat.not_lt_of_le hle (Nat.sub_lt hp Nat.one_pos)

/-- All operands of an alternative of the first tier have the first tier on top, unless they
    are grouped. -/
theorem tier?_of_first (h : t.Tiered T) (hts : t.Reads l ss i j ts) (htree : tree ∈ ts)
    {i' j' : Nat} (hpart : tree.HasPart (.node id i' j' us)) (hop : T.operator? id = some op)
    (hfirst : op.tier = 0) (ha : op.adverbs.associativity ≠ .group)
    (hu : (T.operands op.rhs (Tree.contractAll T.spliced us))[k]? = some u) :
    T.tier? u = some 0 := by
  have hlimit : op.adverbs.associativity.limit? op.tier k
      (T.operands op.rhs (Tree.contractAll T.spliced us)).length = some 0 := by
    rw [hfirst]
    cases hassoc : op.adverbs.associativity with
    | left => exact congrArg some (ite_self _)
    | right => exact congrArg some (ite_self _)
    | group => exact absurd hassoc ha
  obtain ⟨q, hq, hle⟩ := h.fits hop (hts.rhs_of_hasPart htree hpart) k u _ hu hlimit
  rw [hq, Nat.le_zero.mp hle]

end RuleTable.Tiered

end Scannerless
