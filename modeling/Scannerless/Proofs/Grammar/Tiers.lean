import Mathlib.Data.List.Forall2
import Mathlib.Data.Set.Function
import Scannerless.Draft.Structural
import Scannerless.Proofs.Derivation

/-!
# Trees of definitions in tiers

A definition in tiers has a symbol for each tier, and spliced rules that lead from its name to
the loosest tier and from each tier to the next tighter one. Without the spliced rules a tree
of the name is one over the alternatives as they are written, in which the operands of an
alternative have a tier on top that the associativity allows. Each such tree comes from one
tree of the rules.

## Main definitions

- `Tiering` — a definition in tiers; `RuleTable.Tiered` — its rules in a table.
- `Tree.contract` — a tree without spliced rules.
- `Tiering.Fits` — the tiers of operands are as the associativity says.
- `Tiering.Writes` — the trees over alternatives as they are written.

## Main statements

- `RuleTable.Tiered.contracts` — a tree without spliced rules is one over alternatives.
- `RuleTable.Tiered.exists_reads` — every tree over alternatives comes from a tree.
- `RuleTable.Tiered.eq_of_contractAll_eq` — it comes from one tree only.
- `RuleTable.Tiered.bijOn_contract` — the trees of the name correspond to those over its
  alternatives.
-/

namespace Scannerless

/-- An alternative of a tier as it is written: the number of the tier, its adverbs, and its
    symbols, which are the name that is defined where operands stand. -/
structure Operator where
  tier : Nat
  adverbs : RuleAdverbs
  rhs : List SymbolId

/-- A definition in tiers: its name, the symbols of its tiers from `base` on, and its
    alternatives. From the number `first` on there is a spliced rule for each tier, and then
    one for each alternative. -/
structure Tiering where
  lhs : SymbolId
  count : Nat
  base : SymbolId
  first : RuleId
  operators : List Operator

/-- The loosest tier that an operand may have on top, given its place among the operands. -/
def Associativity.limit? (a : Associativity) (tier place count : Nat) : Option Nat :=
  match a with
  | .left => some (if place = 0 then tier else tier - 1)
  | .right => some (if place + 1 = count then tier else tier - 1)
  | .group => none

namespace Tree

mutual

/-- A tree without the spliced rules in it: in place of such a rule stands its only child. -/
def contract (spliced : RuleId → Bool) : Tree → Tree
  | .token s place start stop => .token s place start stop
  | .node id origin stop children =>
    match spliced id, contractAll spliced children with
    | true, [child] => child
    | _, children => .node id origin stop children

def contractAll (spliced : RuleId → Bool) : List Tree → List Tree
  | [] => []
  | tree :: trees => contract spliced tree :: contractAll spliced trees

end

/-- The places between which a tree was read. -/
def places : Tree → Nat × Nat
  | .token _ place _ stop => (place, stop)
  | .node _ origin stop _ => (origin, stop)

theorem contractAll_append (spliced : RuleId → Bool) (ts us : List Tree) :
    contractAll spliced (ts ++ us) = contractAll spliced ts ++ contractAll spliced us := by
  induction ts with
  | nil => rfl
  | cons t ts ih => rw [List.cons_append, contractAll, ih, contractAll, List.cons_append]

theorem length_contractAll (spliced : RuleId → Bool) (ts : List Tree) :
    (contractAll spliced ts).length = ts.length := by
  induction ts with
  | nil => rfl
  | cons t ts ih => rw [contractAll, List.length_cons, ih, List.length_cons]

variable {spliced : RuleId → Bool} {id : RuleId} {origin stop : Nat}

theorem contract_spliced (h : spliced id = true) (child : Tree) :
    contract spliced (.node id origin stop [child]) = contract spliced child := by
  simp [contract, contractAll, h]

theorem contract_node (h : spliced id = false) (children : List Tree) :
    contract spliced (.node id origin stop children) =
      .node id origin stop (contractAll spliced children) := by
  simp [contract, h]

end Tree

namespace Tiering

variable {T : Tiering} {t : RuleTable} {l : Lattice} {s : SymbolId} {u : Tree}

def level (T : Tiering) (p : Nat) : SymbolId :=
  T.base + p

/-- Whether a symbol is that of a tier. -/
def IsLevel (T : Tiering) (s : SymbolId) : Prop :=
  T.base ≤ s ∧ s < T.base + T.count

instance (T : Tiering) (s : SymbolId) : Decidable (T.IsLevel s) :=
  inferInstanceAs (Decidable (_ ∧ _))

/-- What stands for a symbol in what is written. -/
def written (T : Tiering) (s : SymbolId) : SymbolId :=
  if T.IsLevel s then T.lhs else s

/-- Whether a rule is one of the spliced ones. -/
def spliced (T : Tiering) (id : RuleId) : Bool :=
  T.first ≤ id && id < T.first + T.count

/-- The alternative that has a rule. -/
def operator? (T : Tiering) (id : RuleId) : Option Operator :=
  if id < T.first + T.count then none else T.operators[id - (T.first + T.count)]?

/-- The tier of the alternative on top of a tree. -/
def tier? (T : Tiering) : Tree → Option Nat
  | .node id _ _ _ => (T.operator? id).map (·.tier)
  | .token _ _ _ _ => none

/-- The trees that stand where the name is written. -/
def operands (T : Tiering) (rhs : List SymbolId) (us : List Tree) : List Tree :=
  ((rhs.zip us).filter (·.1 == T.lhs)).map (·.2)

/-- The operands of an alternative have tiers on top that its associativity allows. -/
def Fits (T : Tiering) (op : Operator) (us : List Tree) : Prop :=
  ∀ k u limit, (T.operands op.rhs us)[k]? = some u →
    op.adverbs.associativity.limit? op.tier k (T.operands op.rhs us).length = some limit →
    ∃ q, T.tier? u = some q ∧ q ≤ limit

/-- The trees over alternatives as they are written, one for each symbol of a list. -/
inductive Writes (T : Tiering) (t : RuleTable) (l : Lattice) :
    List SymbolId → Nat → Nat → List Tree → Prop where
  | nil (i : Nat) : Writes T t l [] i i []
  | token {ss : List SymbolId} {i k j : Nat} {ts : List Tree} {s : SymbolId}
      (hss : Writes T t l ss i k ts) (hs : t.hasRules s = false) (hj : l.token k s j) :
      Writes T t l (ss ++ [s]) i j (ts ++ [.token s k (l.start k) j])
  | node {ss : List SymbolId} {i k j : Nat} {ts us : List Tree} {s : SymbolId} {id : RuleId}
      (hss : Writes T t l ss i k ts) (hs : s ≠ T.lhs) (hid : id ∈ t.rulesFor s)
      (hus : Writes T t l (t.rhs id) k j us) :
      Writes T t l (ss ++ [s]) i j (ts ++ [.node id k j us])
  | operator {ss : List SymbolId} {i k j : Nat} {ts us : List Tree} {id : RuleId} {op : Operator}
      (hss : Writes T t l ss i k ts) (hop : T.operator? id = some op)
      (hus : Writes T t l op.rhs k j us) (hfits : T.Fits op us) :
      Writes T t l (ss ++ [T.lhs]) i j (ts ++ [.node id k j us])

theorem Writes.append {ss rest : List SymbolId} {i k j : Nat} {ts us : List Tree}
    (hss : T.Writes t l ss i k ts) (hrest : T.Writes t l rest k j us) :
    T.Writes t l (ss ++ rest) i j (ts ++ us) := by
  induction hrest with
  | nil => simpa using hss
  | token _ hs hj ih =>
    rw [← List.append_assoc, ← List.append_assoc]
    exact .token (ih hss) hs hj
  | node _ hs hid hus ih _ =>
    rw [← List.append_assoc, ← List.append_assoc]
    exact .node (ih hss) hs hid hus
  | operator _ hop hus hfits ih _ =>
    rw [← List.append_assoc, ← List.append_assoc]
    exact .operator (ih hss) hop hus hfits

theorem Writes.of_rule {i j : Nat} {us : List Tree} {id : RuleId} (hs : s ≠ T.lhs)
    (hid : id ∈ t.rulesFor s) (hus : T.Writes t l (t.rhs id) i j us) :
    T.Writes t l [s] i j [.node id i j us] := by
  have h := Writes.node (.nil i) hs hid hus
  exact h

theorem Writes.of_operator {i j : Nat} {us : List Tree} {id : RuleId} {op : Operator}
    (hop : T.operator? id = some op) (hus : T.Writes t l op.rhs i j us) (hfits : T.Fits op us) :
    T.Writes t l [T.lhs] i j [.node id i j us] := by
  have h := Writes.operator (.nil i) hop hus hfits
  exact h

theorem Writes.length_eq {ss : List SymbolId} {i j : Nat} {ts : List Tree}
    (h : T.Writes t l ss i j ts) : ts.length = ss.length := by
  induction h with
  | nil => rfl
  | token _ _ _ ih => simp [ih]
  | node _ _ _ _ ih => simp [ih]
  | operator _ _ _ _ ih => simp [ih]

/-! ### Operands -/

/-- A tree of the symbol of a tier has that tier or a tighter one on top. -/
def Within (T : Tiering) (s : SymbolId) (u : Tree) : Prop :=
  T.IsLevel s → ∃ q, T.tier? u = some q ∧ T.level q ≤ s

theorem isLevel_level {p : Nat} (h : p < T.count) : T.IsLevel (T.level p) :=
  ⟨Nat.le_add_right _ _, Nat.add_lt_add_left h _⟩

theorem exists_level (h : T.IsLevel s) : ∃ p, p < T.count ∧ s = T.level p := by
  obtain ⟨p, rfl⟩ := Nat.exists_eq_add_of_le h.1
  exact ⟨p, Nat.lt_of_add_lt_add_left h.2, rfl⟩

theorem within_level_iff {p : Nat} (h : p < T.count) :
    T.Within (T.level p) u ↔ ∃ q, T.tier? u = some q ∧ q ≤ p := by
  rw [Within, forall_prop_of_true (isLevel_level h)]
  simp only [level, Nat.add_le_add_iff_left]

theorem within_of_not_isLevel (h : ¬T.IsLevel s) : T.Within s u :=
  fun hs => absurd hs h

theorem written_level {p : Nat} (h : p < T.count) : T.written (T.level p) = T.lhs :=
  if_pos (isLevel_level h)

theorem written_of_not_isLevel (h : ¬T.IsLevel s) : T.written s = s :=
  if_neg h

/-- The symbols of an alternative of a tier in its rule. -/
def placed (T : Tiering) (a : Associativity) (p : Nat) (isFirst : Bool) (rhs : List SymbolId) :
    List SymbolId :=
  placeOperands a T.lhs (T.level p) (T.level (p - 1)) isFirst (rhs.map (· == T.lhs)) rhs

/-- The right side of the rule of an alternative. -/
def rhsOf (T : Tiering) (op : Operator) : List SymbolId :=
  T.placed op.adverbs.associativity op.tier true op.rhs

section

variable {a : Associativity} {p : Nat} {isFirst : Bool} {rhs : List SymbolId} {us : List Tree}

theorem placed_cons_lhs :
    T.placed a p isFirst (T.lhs :: rhs) =
      a.operand T.lhs (T.level p) (T.level (p - 1)) isFirst (!rhs.contains T.lhs) ::
        T.placed a p false rhs := by
  have hmap : (rhs.map (· == T.lhs)).contains true = rhs.contains T.lhs := by
    rw [Bool.eq_iff_iff]
    simp
  rw [placed, List.map_cons, beq_self_eq_true, placeOperands, hmap, placed]

theorem placed_cons_of_ne (h : s ≠ T.lhs) :
    T.placed a p isFirst (s :: rhs) = s :: T.placed a p isFirst rhs := by
  rw [placed, List.map_cons, beq_eq_false_iff_ne.mpr h, placeOperands, placed]

theorem operands_cons_lhs :
    T.operands (T.lhs :: rhs) (u :: us) = u :: T.operands rhs us := by
  simp [operands]

theorem operands_cons_of_ne (h : s ≠ T.lhs) :
    T.operands (s :: rhs) (u :: us) = T.operands rhs us := by
  simp [operands, h]

/-- There are operands where the name is written. -/
theorem contains_lhs (h : rhs.length = us.length) :
    rhs.contains T.lhs = !decide ((T.operands rhs us).length = 0) := by
  induction rhs generalizing us with
  | nil => simp [operands]
  | cons s rhs ih =>
    cases us with
    | nil => cases h
    | cons u us =>
      have ih := ih (Nat.succ.inj h)
      by_cases hs : s = T.lhs
      · subst hs
        simp [operands_cons_lhs]
      · rw [operands_cons_of_ne hs, List.contains_cons, beq_eq_false_iff_ne.mpr (Ne.symm hs), ih,
          Bool.false_or]

/-- Without the symbols of tiers a right side is what is written. -/
theorem map_written_placed (hp : p < T.count) (hlhs : ¬T.IsLevel T.lhs)
    (hrhs : ∀ s ∈ rhs, ¬T.IsLevel s) : (T.placed a p isFirst rhs).map T.written = rhs := by
  induction rhs generalizing isFirst with
  | nil => rfl
  | cons s rhs ih =>
    rw [List.forall_mem_cons] at hrhs
    by_cases hs : s = T.lhs
    · subst hs
      have htighter := written_level (T := T) (Nat.lt_of_le_of_lt (Nat.sub_le p 1) hp)
      have hoperand (first last : Bool) :
          T.written (a.operand T.lhs (T.level p) (T.level (p - 1)) first last) = T.lhs := by
        cases a <;> cases first <;> cases last <;>
          simp [Associativity.operand, written_level hp, htighter, written_of_not_isLevel hlhs]
      rw [placed_cons_lhs, List.map_cons, ih hrhs.2, hoperand]
    · rw [placed_cons_of_ne hs, List.map_cons, ih hrhs.2, written_of_not_isLevel hrhs.1]

theorem map_written_rhsOf {op : Operator} (hp : op.tier < T.count) (hlhs : ¬T.IsLevel T.lhs)
    (hrhs : ∀ s ∈ op.rhs, ¬T.IsLevel s) : (T.rhsOf op).map T.written = op.rhs :=
  map_written_placed hp hlhs hrhs

/-- Trees have tiers on top that an associativity allows, some operands being in front of
    them. -/
def FitsFrom (T : Tiering) (a : Associativity) (p before : Nat) (us : List Tree) : Prop :=
  ∀ k u limit, us[k]? = some u → a.limit? p (before + k) (before + us.length) = some limit →
    ∃ q, T.tier? u = some q ∧ q ≤ limit

theorem fitsFrom_cons {before : Nat} :
    T.FitsFrom a p before (u :: us) ↔
      (∀ limit, a.limit? p before (before + (us.length + 1)) = some limit →
        ∃ q, T.tier? u = some q ∧ q ≤ limit) ∧ T.FitsFrom a p (before + 1) us := by
  have hlength : before + 1 + us.length = before + (us.length + 1) := by omega
  constructor
  · intro h
    refine ⟨fun limit => h 0 u limit rfl, fun k v limit hv hlimit => h (k + 1) v limit hv ?_⟩
    rwa [List.length_cons, ← hlength, ← Nat.add_assoc, Nat.add_right_comm]
  · rintro ⟨hfirst, hrest⟩ k v limit hv hlimit
    cases k with
    | zero =>
      obtain rfl := Option.some.inj hv
      exact hfirst limit hlimit
    | succ k =>
      refine hrest k v limit hv ?_
      rwa [hlength, Nat.add_right_comm]

/-- The symbol of an operand stands for the tiers that the associativity allows. -/
theorem within_operand_iff (hp : p < T.count) (hlhs : ¬T.IsLevel T.lhs) {before after : Nat} :
    T.Within (a.operand T.lhs (T.level p) (T.level (p - 1)) (before == 0) (after == 0)) u ↔
      ∀ limit, a.limit? p before (before + (after + 1)) = some limit →
        ∃ q, T.tier? u = some q ∧ q ≤ limit := by
  have htighter : p - 1 < T.count := Nat.lt_of_le_of_lt (Nat.sub_le p 1) hp
  cases a with
  | left =>
    by_cases hfirst : before = 0
    · simp [Associativity.operand, Associativity.limit?, hfirst, within_level_iff hp]
    · simp [Associativity.operand, Associativity.limit?, hfirst, within_level_iff htighter]
  | right =>
    by_cases hafter : after = 0
    · simp [Associativity.operand, Associativity.limit?, hafter, within_level_iff hp]
    · simp [Associativity.operand, Associativity.limit?, hafter, within_level_iff htighter]
  | group => simp [Associativity.operand, Associativity.limit?, within_of_not_isLevel hlhs]

/-- Trees of the symbols of a rule have on top what the associativity allows. -/
theorem forall₂_within_placed_iff (hp : p < T.count) (hlhs : ¬T.IsLevel T.lhs)
    (hrhs : ∀ s ∈ rhs, ¬T.IsLevel s) (hlength : rhs.length = us.length) (before : Nat) :
    List.Forall₂ T.Within (T.placed a p (before == 0) rhs) us ↔
      T.FitsFrom a p before (T.operands rhs us) := by
  induction rhs generalizing us before with
  | nil =>
    obtain rfl := List.length_eq_zero_iff.mp hlength.symm
    simp [placed, placeOperands, operands, FitsFrom]
  | cons s rhs ih =>
    cases us with
    | nil => cases hlength
    | cons u us =>
      rw [List.forall_mem_cons] at hrhs
      have hrest : rhs.length = us.length := Nat.succ.inj hlength
      by_cases hs : s = T.lhs
      · subst hs
        have ih := ih hrhs.2 hrest (before + 1)
        have hlast : (!rhs.contains T.lhs) = ((T.operands rhs us).length == 0) := by
          rw [contains_lhs hrest, Bool.not_not]
          rfl
        rw [placed_cons_lhs, operands_cons_lhs, List.forall₂_cons, fitsFrom_cons, hlast,
          within_operand_iff hp hlhs]
        exact and_congr_right fun _ => ih
      · rw [placed_cons_of_ne hs, operands_cons_of_ne hs, List.forall₂_cons, ih hrhs.2 hrest before]
        exact and_iff_right (within_of_not_isLevel hrhs.1)

theorem fits_iff {op : Operator} (hp : op.tier < T.count) (hlhs : ¬T.IsLevel T.lhs)
    (hrhs : ∀ s ∈ op.rhs, ¬T.IsLevel s) (hlength : op.rhs.length = us.length) :
    List.Forall₂ T.Within (T.rhsOf op) us ↔ T.Fits op us := by
  have h := forall₂_within_placed_iff (a := op.adverbs.associativity) hp hlhs hrhs hlength 0
  simpa [FitsFrom, Fits, rhsOf] using h

end

end Tiering

/-! ### Both kinds of trees -/

namespace RuleTable

/-- The rules of a definition in tiers in a table. The symbols of the tiers have no others,
    and stand in no others. -/
structure Tiered (t : RuleTable) (T : Tiering) : Prop where
  indexed : t.Indexed
  pos : 0 < T.count
  lhs : ¬T.IsLevel T.lhs
  name : ∀ id, t.lhs? id = some T.lhs ↔ id = T.first
  name_rhs : t.rhs T.first = [T.level (T.count - 1)]
  step : ∀ p, 0 < p → p < T.count →
    t.lhs? (T.first + p) = some (T.level p) ∧ t.rhs (T.first + p) = [T.level (p - 1)]
  operator : ∀ id op, T.operator? id = some op → op.tier < T.count ∧
    t.lhs? id = some (T.level op.tier) ∧ t.rhs id = T.rhsOf op ∧ ∀ s ∈ op.rhs, ¬T.IsLevel s
  tightest : ∃ id, t.lhs? id = some (T.level 0)
  level : ∀ id s, t.lhs? id = some s → T.IsLevel s →
    T.spliced id = true ∨ ∃ op, T.operator? id = some op
  other : ∀ id s, t.lhs? id = some s → s ≠ T.lhs → ¬T.IsLevel s → ∀ x ∈ t.rhs id, ¬T.IsLevel x

namespace Tiered

variable {t : RuleTable} {T : Tiering} {l : Lattice} {i j k : Nat} {s : SymbolId} {id : RuleId}
  {ss ss' : List SymbolId} {ts us : List Tree}

/-- What a rule is to a definition in tiers. -/
inductive Role (T : Tiering) : RuleId → SymbolId → Prop where
  | name : Role T T.first T.lhs
  | step {p : Nat} (hpos : 0 < p) (hp : p < T.count) : Role T (T.first + p) (T.level p)
  | operator {id : RuleId} {op : Operator} (hop : T.operator? id = some op) :
      Role T id (T.level op.tier)
  | other {id : RuleId} {s : SymbolId} (hid : T.spliced id = false) (hs : s ≠ T.lhs)
      (hlevel : ¬T.IsLevel s) : Role T id s

theorem spliced_of_operator? {op : Operator} (h : T.operator? id = some op) :
    T.spliced id = false := by
  rw [Tiering.operator?] at h
  split at h
  · cases h
  next hle => simp [Tiering.spliced, hle]

theorem spliced_add {p : Nat} (hp : p < T.count) : T.spliced (T.first + p) = true := by
  simp [Tiering.spliced, hp]

theorem spliced_first (h : t.Tiered T) : T.spliced T.first = true :=
  spliced_add h.pos

theorem exists_add_of_spliced (hid : T.spliced id = true) :
    ∃ p, p < T.count ∧ id = T.first + p := by
  simp only [Tiering.spliced, Bool.and_eq_true, decide_eq_true_eq] at hid
  obtain ⟨p, rfl⟩ := Nat.exists_eq_add_of_le hid.1
  exact ⟨p, Nat.lt_of_add_lt_add_left hid.2, rfl⟩

theorem role (h : t.Tiered T) (hid : t.lhs? id = some s) : Role T id s := by
  cases hspliced : T.spliced id with
  | true =>
    obtain ⟨p, hp, rfl⟩ := exists_add_of_spliced hspliced
    rcases Nat.eq_zero_or_pos p with rfl | hpos
    · obtain rfl := Option.some.inj (hid.symm.trans ((h.name _).mpr rfl))
      exact .name
    · obtain rfl := Option.some.inj (hid.symm.trans (h.step p hpos hp).1)
      exact .step hpos hp
  | false =>
    by_cases hlevel : T.IsLevel s
    · rcases h.level id s hid hlevel with hcontra | ⟨op, hop⟩
      · rw [hspliced] at hcontra
        cases hcontra
      · obtain rfl := Option.some.inj (hid.symm.trans (h.operator id op hop).2.1)
        exact .operator hop
    · refine .other hspliced (fun heq => ?_) hlevel
      have hfirst := (h.name id).mp (heq ▸ hid)
      rw [hfirst, h.spliced_first] at hspliced
      cases hspliced

/-- The symbols of tiers have rules. -/
theorem not_isLevel (h : t.Tiered T) (hs : t.hasRules s = false) : ¬T.IsLevel s := by
  intro hlevel
  obtain ⟨p, hp, rfl⟩ := Tiering.exists_level hlevel
  obtain ⟨id, hid⟩ : ∃ id, t.lhs? id = some (T.level p) := by
    rcases Nat.eq_zero_or_pos p with rfl | hpos
    · exact h.tightest
    · exact ⟨_, (h.step p hpos hp).1⟩
  rw [h.indexed.hasRules_of_lhs hid] at hs
  cases hs

theorem written_of_other (hs : ∀ x ∈ ss, ¬T.IsLevel x) : ss.map T.written = ss := by
  have hmap : ss.map T.written = ss.map id := by
    exact List.map_congr_left fun x hx => Tiering.written_of_not_isLevel (hs x hx)
  rw [hmap, List.map_id]

theorem within_of_other (hs : ∀ x ∈ ss, ¬T.IsLevel x) (hlength : us.length = ss.length) :
    List.Forall₂ T.Within ss us := by
  rw [List.forall₂_iff_zip]
  refine ⟨hlength.symm, fun {x u} hmem => ?_⟩
  exact Tiering.within_of_not_isLevel (hs x (List.of_mem_zip hmem).1)

theorem spliced_of_other (h : t.Tiered T) (hid : t.lhs? id = some s) (hs : s ≠ T.lhs)
    (hlevel : ¬T.IsLevel s) : T.spliced id = false := by
  cases h.role hid with
  | name => exact absurd rfl hs
  | step _ hp => exact absurd (Tiering.isLevel_level hp) hlevel
  | operator hop => exact absurd (Tiering.isLevel_level (h.operator _ _ hop).1) hlevel
  | other hspliced _ _ => exact hspliced

/-- The tree of a rule without spliced rules. -/
theorem contracts_node (h : t.Tiered T) (hid : t.lhs? id = some s)
    (hus : t.Reads l (t.rhs id) k j us)
    (hwrites : T.Writes t l ((t.rhs id).map T.written) k j (Tree.contractAll T.spliced us))
    (hwithin : List.Forall₂ T.Within (t.rhs id) (Tree.contractAll T.spliced us)) :
    T.Writes t l [T.written s] k j [(Tree.node id k j us).contract T.spliced] ∧
      T.Within s ((Tree.node id k j us).contract T.spliced) := by
  have hone {x : SymbolId} (hrhs : t.rhs id = [x]) (hspliced : T.spliced id = true) :
      ∃ v, (Tree.node id k j us).contract T.spliced = v ∧ T.Writes t l [T.written x] k j [v] ∧
        T.Within x v := by
    rw [hrhs] at hus hwrites hwithin
    obtain ⟨u, rfl⟩ := List.length_eq_one_iff.mp hus.length_eq
    exact ⟨_, Tree.contract_spliced hspliced u, hwrites, List.forall₂_cons.mp hwithin |>.1⟩
  cases h.role hid with
  | name =>
    have hp : T.count - 1 < T.count := Nat.sub_lt h.pos Nat.one_pos
    obtain ⟨v, rfl, hv, -⟩ := hone h.name_rhs h.spliced_first
    rw [Tiering.written_level hp] at hv
    rw [Tiering.written_of_not_isLevel h.lhs]
    exact ⟨hv, Tiering.within_of_not_isLevel h.lhs⟩
  | @step p hpos hp =>
    have htighter : p - 1 < T.count := Nat.lt_of_le_of_lt (Nat.sub_le p 1) hp
    obtain ⟨v, rfl, hv, hwithin⟩ := hone (h.step p hpos hp).2 (spliced_add hp)
    rw [Tiering.written_level htighter] at hv
    rw [Tiering.written_level hp]
    obtain ⟨q, hq, hle⟩ := (Tiering.within_level_iff htighter).mp hwithin
    exact ⟨hv, (Tiering.within_level_iff hp).mpr ⟨q, hq, Nat.le_trans hle (Nat.sub_le p 1)⟩⟩
  | @operator _ op hop =>
    obtain ⟨hp, -, hrhs, hlevels⟩ := h.operator id op hop
    have hlength : op.rhs.length = (Tree.contractAll T.spliced us).length := by
      have hmap := congrArg List.length (Tiering.map_written_rhsOf hp h.lhs hlevels)
      rw [List.length_map] at hmap
      rw [Tree.length_contractAll, hus.length_eq, hrhs, hmap]
    rw [hrhs, Tiering.map_written_rhsOf hp h.lhs hlevels] at hwrites
    rw [hrhs, Tiering.fits_iff hp h.lhs hlevels hlength] at hwithin
    rw [Tree.contract_node (spliced_of_operator? hop), Tiering.written_level hp]
    refine ⟨.of_operator hop hwrites hwithin, ?_⟩
    exact (Tiering.within_level_iff hp).mpr ⟨op.tier, by simp [Tiering.tier?, hop], Nat.le_refl _⟩
  | other hspliced hs hlevel =>
    rw [written_of_other (h.other id s hid hs hlevel)] at hwrites
    rw [Tree.contract_node hspliced, Tiering.written_of_not_isLevel hlevel]
    refine ⟨.of_rule hs ((h.indexed s id).mpr hid) hwrites, ?_⟩
    exact Tiering.within_of_not_isLevel hlevel

/-- A tree without spliced rules is one over the alternatives as they are written. -/
theorem contracts (h : t.Tiered T) (hts : t.Reads l ss i j ts) :
    T.Writes t l (ss.map T.written) i j (Tree.contractAll T.spliced ts) ∧
      List.Forall₂ T.Within ss (Tree.contractAll T.spliced ts) := by
  induction hts with
  | nil i => exact ⟨.nil i, .nil⟩
  | @token ss i k j ts s _ hs hj ih =>
    have hlevel := h.not_isLevel hs
    rw [Tree.contractAll_append, List.map_append, List.map_singleton,
      Tiering.written_of_not_isLevel hlevel]
    refine ⟨.token ih.1 hs hj, List.rel_append ih.2 (.cons ?_ .nil)⟩
    exact Tiering.within_of_not_isLevel hlevel
  | @node ss i k j ts us s id _ hid hus ihss ihus =>
    obtain ⟨hwrites, hwithin⟩ := h.contracts_node ((h.indexed s id).mp hid) hus ihus.1 ihus.2
    rw [Tree.contractAll_append, List.map_append]
    exact ⟨ihss.1.append hwrites, List.rel_append ihss.2 (.cons hwithin .nil)⟩

/-- The spliced rules lead from a tier to all looser ones, and to the name. -/
theorem exists_reads_level (h : t.Tiered T) {p q : Nat} (hpq : p ≤ q) (hq : q < T.count)
    {u : Tree} (hu : t.Reads l [T.level p] i j [u]) :
    ∃ v, t.Reads l [T.level q] i j [v] ∧ v.contract T.spliced = u.contract T.spliced := by
  induction hpq with
  | refl => exact ⟨u, hu, rfl⟩
  | @step q hpq ih =>
    obtain ⟨v, hv, hcontract⟩ := ih (Nat.lt_of_succ_lt hq)
    obtain ⟨hid, hrhs⟩ := h.step (q + 1) (Nat.succ_pos q) hq
    refine ⟨.node (T.first + (q + 1)) i j [v], ?_, ?_⟩
    · refine .of_rule ((h.indexed _ _).mpr hid) ?_
      rw [hrhs]
      exact hv
    · rw [Tree.contract_spliced (spliced_add hq), hcontract]

theorem exists_reads_lhs (h : t.Tiered T) {p : Nat} (hp : p < T.count) {u : Tree}
    (hu : t.Reads l [T.level p] i j [u]) :
    ∃ v, t.Reads l [T.lhs] i j [v] ∧ v.contract T.spliced = u.contract T.spliced := by
  obtain ⟨v, hv, hcontract⟩ :=
    h.exists_reads_level (Nat.le_sub_one_of_lt hp) (Nat.sub_lt h.pos Nat.one_pos) hu
  have hid := (h.name T.first).mpr rfl
  refine ⟨.node T.first i j [v], ?_, ?_⟩
  · refine .of_rule ((h.indexed _ _).mpr hid) ?_
    rw [h.name_rhs]
    exact hv
  · rw [Tree.contract_spliced h.spliced_first, hcontract]

/-- The last of some symbols and trees that belong together. -/
theorem concat_cases {u : Tree} (hss : ss.map T.written = ss' ++ [s])
    (hwithin : List.Forall₂ T.Within ss (us ++ [u])) :
    ∃ rest x, ss = rest ++ [x] ∧ rest.map T.written = ss' ∧ T.written x = s ∧
      List.Forall₂ T.Within rest us ∧ T.Within x u := by
  obtain ⟨rest, last, rfl, hrest, hlast⟩ := List.map_eq_append_iff.mp hss
  obtain ⟨x, rfl, hx⟩ := List.map_eq_singleton_iff.mp hlast
  have hreverse := List.rel_reverse hwithin
  rw [List.reverse_concat, List.reverse_concat, List.forall₂_cons] at hreverse
  exact ⟨rest, x, rfl, hrest, hx, List.forall₂_reverse_iff.mp hreverse.2, hreverse.1⟩

/-- From a tier the spliced rules lead to every symbol that may have the tier on top. -/
theorem exists_reads_of_within (h : t.Tiered T) {p : Nat} {x : SymbolId} {u : Tree}
    (hp : p < T.count) (hu : t.Reads l [T.level p] i j [u])
    (htier : T.tier? (u.contract T.spliced) = some p) (hx : T.written x = T.lhs)
    (hwithin : T.Within x (u.contract T.spliced)) :
    ∃ v, t.Reads l [x] i j [v] ∧ v.contract T.spliced = u.contract T.spliced := by
  by_cases hlevel : T.IsLevel x
  · obtain ⟨q, hq, rfl⟩ := Tiering.exists_level hlevel
    obtain ⟨p', htier', hle⟩ := (Tiering.within_level_iff hq).mp hwithin
    obtain rfl := Option.some.inj (htier.symm.trans htier')
    exact h.exists_reads_level hle hq hu
  · rw [Tiering.written_of_not_isLevel hlevel] at hx
    exact hx ▸ h.exists_reads_lhs hp hu

/-- A symbol other than the name is written as it is. -/
theorem eq_of_written {x : SymbolId} (hx : T.written x = s) (hs : s ≠ T.lhs) :
    x = s ∧ ¬T.IsLevel s := by
  rw [Tiering.written] at hx
  split at hx
  · exact absurd hx.symm hs
  next hlevel => exact ⟨hx, hx ▸ hlevel⟩

/-- Every tree over the alternatives comes from a tree of the rules. -/
theorem exists_reads (h : t.Tiered T) (hus : T.Writes t l ss' i j us)
    (hss : ss.map T.written = ss') (hwithin : List.Forall₂ T.Within ss us) :
    ∃ ts, t.Reads l ss i j ts ∧ Tree.contractAll T.spliced ts = us := by
  induction hus generalizing ss with
  | nil i =>
    obtain rfl := List.map_eq_nil_iff.mp hss
    exact ⟨[], .nil i, rfl⟩
  | @token ss' i k j us s _ hs hj ih =>
    obtain ⟨rest, x, rfl, hrest, hx, hwithin, -⟩ := concat_cases hss hwithin
    obtain ⟨ts, hts, rfl⟩ := ih hrest hwithin
    have hne : s ≠ T.lhs := by
      rintro rfl
      rw [h.indexed.hasRules_of_lhs ((h.name T.first).mpr rfl)] at hs
      cases hs
    obtain ⟨rfl, -⟩ := eq_of_written hx hne
    exact ⟨_, .token hts hs hj, Tree.contractAll_append _ _ _⟩
  | @node ss' i k j us vs s id _ hs hid hvs ihus ihvs =>
    obtain ⟨rest, x, rfl, hrest, hx, hwithin, -⟩ := concat_cases hss hwithin
    obtain ⟨ts, hts, rfl⟩ := ihus hrest hwithin
    obtain ⟨rfl, hlevel⟩ := eq_of_written hx hs
    have hlhs := (h.indexed x id).mp hid
    have hrhs := h.other id x hlhs hs hlevel
    obtain ⟨ws, hws, rfl⟩ := ihvs (written_of_other hrhs) (within_of_other hrhs hvs.length_eq)
    refine ⟨_, .node hts hid hws, ?_⟩
    rw [Tree.contractAll_append, Tree.contractAll,
      Tree.contract_node (h.spliced_of_other hlhs hs hlevel)]
    rfl
  | @operator ss' i k j us vs id op _ hop hvs hfits ihus ihvs =>
    obtain ⟨rest, x, rfl, hrest, hx, hwithin, hlast⟩ := concat_cases hss hwithin
    obtain ⟨ts, hts, rfl⟩ := ihus hrest hwithin
    obtain ⟨hp, hlhs, hrhs, hlevels⟩ := h.operator id op hop
    obtain ⟨ws, hws, rfl⟩ := ihvs (Tiering.map_written_rhsOf hp h.lhs hlevels)
      ((Tiering.fits_iff hp h.lhs hlevels hvs.length_eq.symm).mpr hfits)
    rw [← hrhs] at hws
    have hnode : t.Reads l [T.level op.tier] k j [.node id k j ws] :=
      .of_rule ((h.indexed _ _).mpr hlhs) hws
    have hcontract : (Tree.node id k j ws).contract T.spliced =
        .node id k j (Tree.contractAll T.spliced ws) :=
      Tree.contract_node (spliced_of_operator? hop) ws
    obtain ⟨v, hv, hsame⟩ := h.exists_reads_of_within hp hnode
      (by simp [hcontract, Tiering.tier?, hop]) hx (hcontract ▸ hlast)
    refine ⟨ts ++ [v], hts.append hv, ?_⟩
    rw [Tree.contractAll_append, Tree.contractAll, hsame, hcontract]
    rfl

/-- A spliced rule has one symbol on its right side, and is the only one of its symbol. -/
theorem spliced_rhs (h : t.Tiered T) (hspliced : T.spliced id = true) :
    ∃ p x, p < T.count ∧ id = T.first + p ∧ t.rhs id = [x] := by
  obtain ⟨p, hp, rfl⟩ := exists_add_of_spliced hspliced
  rcases Nat.eq_zero_or_pos p with rfl | hpos
  · exact ⟨0, _, hp, rfl, h.name_rhs⟩
  · exact ⟨p, _, hp, rfl, (h.step p hpos hp).2⟩

theorem spliced_unique (h : t.Tiered T) {id' : RuleId} (hid : t.lhs? id = some s)
    (hid' : t.lhs? id' = some s) (hspliced : T.spliced id = true)
    (hspliced' : T.spliced id' = true) : id = id' := by
  obtain ⟨p, hp, rfl⟩ := exists_add_of_spliced hspliced
  obtain ⟨q, hq, rfl⟩ := exists_add_of_spliced hspliced'
  rcases Nat.eq_zero_or_pos p with rfl | hpos
  · obtain rfl := Option.some.inj (hid.symm.trans ((h.name _).mpr rfl))
    exact ((h.name _).mp hid').symm
  · obtain rfl := Option.some.inj (hid.symm.trans (h.step p hpos hp).1)
    rcases Nat.eq_zero_or_pos q with rfl | hqpos
    · have heq := Option.some.inj (hid'.symm.trans ((h.name _).mpr rfl))
      exact absurd (heq ▸ Tiering.isLevel_level hp) h.lhs
    · have heq := Option.some.inj (hid'.symm.trans (h.step q hqpos hq).1)
      rw [Nat.add_left_cancel heq]

/-- Below a spliced rule is no alternative of its own symbol. -/
theorem contract_ne_node (h : t.Tiered T) {id' : RuleId} {k' j' : Nat} (hid : t.lhs? id = some s)
    (hid' : t.lhs? id' = some s) (hspliced : T.spliced id = true)
    (hspliced' : T.spliced id' = false) (hts : t.Reads l (t.rhs id) k j ts) :
    (Tree.node id k j ts).contract T.spliced ≠ .node id' k' j' us := by
  intro heq
  obtain ⟨p, hp, rfl⟩ := exists_add_of_spliced hspliced
  rcases Nat.eq_zero_or_pos p with rfl | hpos
  · -- The only rule of the name is spliced.
    obtain rfl := Option.some.inj (hid.symm.trans ((h.name _).mpr rfl))
    rw [(h.name id').mp hid', h.spliced_first] at hspliced'
    cases hspliced'
  · obtain ⟨hlhs, hrhs⟩ := h.step p hpos hp
    obtain rfl := Option.some.inj (hid.symm.trans hlhs)
    have htighter : p - 1 < T.count := Nat.lt_of_le_of_lt (Nat.sub_le p 1) hp
    obtain ⟨u, rfl⟩ := List.length_eq_one_iff.mp (hrhs ▸ hts.length_eq)
    have hwithin := (h.contracts hts).2
    rw [hrhs, Tree.contractAll, Tree.contractAll, List.forall₂_cons,
      Tiering.within_level_iff htighter] at hwithin
    obtain ⟨⟨q, hq, hle⟩, -⟩ := hwithin
    rw [Tree.contract_spliced hspliced] at heq
    rcases h.level id' _ hid' (Tiering.isLevel_level hp) with hcontra | ⟨op, hop⟩
    · rw [hspliced'] at hcontra
      cases hcontra
    · have heq' := Option.some.inj (hid'.symm.trans (h.operator id' op hop).2.1)
      have hop' : T.tier? (.node id' k' j' us) = some p := by
        rw [Tiering.tier?, hop, Option.map_some, ← Nat.add_left_cancel heq']
      rw [heq, hop'] at hq
      obtain rfl := Option.some.inj hq
      exact Nat.not_lt_of_le hle (Nat.sub_lt hpos Nat.one_pos)

/-- A tree of a tier has the spliced rule to the next tighter tier on top, or the rule of one of
    its alternatives. -/
theorem level_cases (h : t.Tiered T) {p : Nat} {u : Tree} (hp : p < T.count)
    (hu : t.Reads l [T.level p] i j [u]) :
    (∃ v, 0 < p ∧ u = .node (T.first + p) i j [v] ∧ t.Reads l [T.level (p - 1)] i j [v]) ∨
      ∃ id op vs, u = .node id i j vs ∧ T.operator? id = some op ∧ op.tier = p ∧
        t.Reads l (t.rhs id) i j vs := by
  rcases hu.singleton_cases with ⟨hs, -, -⟩ | ⟨id, vs, hid, hvs, heq⟩
  · exact absurd (Tiering.isLevel_level hp) (h.not_isLevel hs)
  obtain rfl := List.singleton_inj.mp heq
  have hlhs := (h.indexed _ _).mp hid
  rcases h.level id _ hlhs (Tiering.isLevel_level hp) with hspliced | ⟨op, hop⟩
  · obtain ⟨q, hq, rfl⟩ := exists_add_of_spliced hspliced
    rcases Nat.eq_zero_or_pos q with rfl | hpos
    · -- The first of the spliced rules is that of the name.
      have heq := Option.some.inj (hlhs.symm.trans ((h.name _).mpr rfl))
      exact absurd (heq ▸ Tiering.isLevel_level hp) h.lhs
    · obtain ⟨hlhs', hrhs⟩ := h.step q hpos hq
      obtain rfl := Nat.add_left_cancel (Option.some.inj (hlhs.symm.trans hlhs'))
      rw [hrhs] at hvs
      obtain ⟨v, rfl⟩ := List.length_eq_one_iff.mp hvs.length_eq
      exact Or.inl ⟨v, hpos, rfl, hvs⟩
  · have heq := Option.some.inj (hlhs.symm.trans (h.operator id op hop).2.1)
    exact Or.inr ⟨id, op, vs, rfl, hop, (Nat.add_left_cancel heq).symm, hvs⟩

/-- A property of the trees of tiers, from alternatives up the spliced rules. The induction is on
    the tier, from which the spliced rule leads to the next tighter one. -/
theorem level_induct (h : t.Tiered T) {motive : Nat → Tree → Prop}
    (operator : ∀ id op vs, T.operator? id = some op → t.Reads l (t.rhs id) i j vs →
      motive op.tier (.node id i j vs))
    (splice : ∀ p v, p + 1 < T.count → t.Reads l [T.level p] i j [v] → motive p v →
      motive (p + 1) (.node (T.first + (p + 1)) i j [v]))
    {p : Nat} {u : Tree} (hp : p < T.count) (hu : t.Reads l [T.level p] i j [u]) : motive p u := by
  induction p generalizing u with
  | zero =>
    rcases h.level_cases hp hu with ⟨_, hpos, -⟩ | ⟨id, op, vs, rfl, hop, htier, hvs⟩
    · exact absurd hpos (Nat.lt_irrefl 0)
    · exact htier ▸ operator id op vs hop hvs
  | succ p ih =>
    rcases h.level_cases hp hu with ⟨v, -, rfl, hv⟩ | ⟨id, op, vs, rfl, hop, htier, hvs⟩
    · exact splice p v hp hv (ih (Nat.lt_of_succ_lt hp) hv)
    · exact htier ▸ operator id op vs hop hvs

/-- A tree of a symbol knows its places. -/
theorem places_eq {u : Tree} (hu : t.Reads l [s] i j [u]) : u.places = (i, j) := by
  rcases hu.singleton_cases with ⟨-, -, heq⟩ | ⟨id, vs, -, -, heq⟩
  · rw [List.singleton_inj.mp heq, Tree.places]
  · rw [List.singleton_inj.mp heq, Tree.places]

/-- Two trees of a symbol with one tree over the alternatives are equal if their children with
    the same trees over the alternatives are. -/
theorem node_eq_of_contract_eq (h : t.Tiered T) {id' : RuleId} {k' j' : Nat}
    (hid : t.lhs? id = some s) (hid' : t.lhs? id' = some s) (hts : t.Reads l (t.rhs id) k j ts)
    (hus : t.Reads l (t.rhs id') k' j' us)
    (ih : ∀ {us : List Tree} {k' j' : Nat}, t.Reads l (t.rhs id) k' j' us →
      Tree.contractAll T.spliced ts = Tree.contractAll T.spliced us → ts = us)
    (heq : (Tree.node id k j ts).contract T.spliced =
      (Tree.node id' k' j' us).contract T.spliced) :
    Tree.node id k j ts = .node id' k' j' us := by
  cases hspliced : T.spliced id with
  | false =>
    cases hspliced' : T.spliced id' with
    | false =>
      rw [Tree.contract_node hspliced, Tree.contract_node hspliced'] at heq
      obtain ⟨rfl, rfl, rfl, hchildren⟩ := Tree.node.inj heq
      rw [ih hus hchildren]
    | true =>
      rw [Tree.contract_node hspliced] at heq
      exact absurd heq.symm (h.contract_ne_node hid' hid hspliced' hspliced hus)
  | true =>
    cases hspliced' : T.spliced id' with
    | false =>
      rw [Tree.contract_node hspliced'] at heq
      exact absurd heq (h.contract_ne_node hid hid' hspliced hspliced' hts)
    | true =>
      obtain rfl := h.spliced_unique hid hid' hspliced hspliced'
      obtain ⟨p, x, -, -, hrhs⟩ := h.spliced_rhs hspliced
      obtain ⟨v, rfl⟩ := List.length_eq_one_iff.mp (hrhs ▸ hts.length_eq)
      obtain ⟨v', rfl⟩ := List.length_eq_one_iff.mp (hrhs ▸ hus.length_eq)
      rw [Tree.contract_spliced hspliced, Tree.contract_spliced hspliced] at heq
      obtain rfl := List.singleton_inj.mp (ih hus (by simp [Tree.contractAll, heq]))
      rw [hrhs] at hts hus
      obtain ⟨rfl, rfl⟩ := Prod.mk.inj ((places_eq hts).symm.trans (places_eq hus))
      rfl

/-- A tree over the alternatives comes from one tree only. -/
theorem eq_of_contractAll_eq (h : t.Tiered T) {i' j' : Nat} (hts : t.Reads l ss i j ts)
    (hus : t.Reads l ss i' j' us)
    (heq : Tree.contractAll T.spliced ts = Tree.contractAll T.spliced us) : ts = us := by
  induction hts generalizing us i' j' with
  | nil i => exact (hus.nil_inv.2).symm
  | @token ss i k j ts s hss hs hj ih =>
    obtain ⟨k', rest, hrest, ⟨-, hj', rfl⟩ | ⟨id, vs, hid, -, -⟩⟩ := hus.concat_cases
    · rw [Tree.contractAll_append, Tree.contractAll_append] at heq
      obtain ⟨hfront, hlast⟩ := List.append_inj' heq rfl
      rw [ih hrest hfront]
      simpa [Tree.contractAll, Tree.contract] using hlast
    · rw [RuleTable.hasRules_of_mem hid] at hs
      cases hs
  | @node ss i k j ts vs s id hss hid hvs ihss ihvs =>
    obtain ⟨k', rest, hrest, ⟨hs, -, -⟩ | ⟨id', vs', hid', hvs', rfl⟩⟩ := hus.concat_cases
    · rw [RuleTable.hasRules_of_mem hid] at hs
      cases hs
    rw [Tree.contractAll_append, Tree.contractAll_append] at heq
    obtain ⟨hfront, hlast⟩ := List.append_inj' heq rfl
    rw [ihss hrest hfront]
    have hnode := h.node_eq_of_contract_eq ((h.indexed s id).mp hid) ((h.indexed s id').mp hid')
      hvs hvs' ihvs (by simpa [Tree.contractAll] using hlast)
    rw [hnode]

/-- Without spliced rules the trees of the name are those over its alternatives, each of which
    comes from one tree. -/
theorem bijOn_contract (h : t.Tiered T) (l : Lattice) (i j : Nat) :
    Set.BijOn (Tree.contract T.spliced) {u | t.Reads l [T.lhs] i j [u]}
      {u | T.Writes t l [T.lhs] i j [u]} := by
  have hwritten := Tiering.written_of_not_isLevel h.lhs
  refine ⟨fun u hu => ?_, fun u hu v hv heq => ?_, fun u hu => ?_⟩
  · have hwrites := (h.contracts hu).1
    rwa [List.map_singleton, hwritten] at hwrites
  · exact List.singleton_inj.mp
      (h.eq_of_contractAll_eq hu hv (by simp only [Tree.contractAll, heq]))
  · have hmap : [T.lhs].map T.written = [T.lhs] := by
      rw [List.map_singleton, hwritten]
    obtain ⟨ts, hts, hcontract⟩ := h.exists_reads hu hmap
      (.cons (Tiering.within_of_not_isLevel h.lhs) .nil)
    obtain ⟨v, rfl⟩ := List.length_eq_one_iff.mp hts.length_eq
    exact ⟨v, hts, List.singleton_inj.mp hcontract⟩

end Tiered

end RuleTable

end Scannerless
