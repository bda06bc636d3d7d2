import Mathlib.Data.Finset.Card
import Mathlib.Data.Finset.Range
import Scannerless.Proofs.Derivation

/-!
# Symbols that derive nothing

The marks of the symbols that derive the empty list grow from pass to pass. As long as
they grow one more symbol is marked, so that there are enough passes, and in the end no
rule marks another symbol.

## Main definitions

- `RuleTable.Marked` — a symbol is marked.
- `RuleTable.MarksClosed`, `RuleTable.MarksSound` — all symbols that derive the empty
  list are marked, and only such symbols are.

## Main statements

- `RuleTable.isNullable_ofRules_iff` — the marks of a table are right.
- `RuleTable.indexed_ofRules` — the rules of a symbol are those with it on their left.
-/

namespace Scannerless

namespace RuleTable

variable {rules : Array Rule} {marks next : Array Bool} {n : Nat}

def Marked (marks : Array Bool) (s : SymbolId) : Prop :=
  marks.getD s false = true

instance (marks : Array Bool) : DecidablePred (Marked marks) :=
  fun _ => inferInstanceAs (Decidable (_ = true))

/-- Every symbol is marked that has a rule of marked symbols only. -/
def MarksClosed (rules : List Rule) (marks : Array Bool) : Prop :=
  ∀ r ∈ rules, (∀ s ∈ r.rhs, Marked marks s) → Marked marks r.lhs

theorem Marked.lt {s : SymbolId} (h : Marked marks s) : s < marks.size := by
  refine Nat.lt_of_not_le fun hle => ?_
  rw [Marked, Array.getD_eq_getD_getElem?, Array.getElem?_eq_none hle] at h
  cases h

theorem marked_setIfInBounds_iff {i s : SymbolId} (hi : i < marks.size) :
    Marked (marks.setIfInBounds i true) s ↔ s = i ∨ Marked marks s := by
  rw [Marked, Marked, Array.getD_eq_getD_getElem?, Array.getElem?_setIfInBounds,
    Array.getD_eq_getD_getElem?]
  by_cases h : i = s
  · subst h
    simp [hi]
  · simp [h, Ne.symm h]

def markRule (marks : Array Bool) (r : Rule) : Array Bool :=
  if r.rhs.all fun s => marks.getD s false then marks.setIfInBounds r.lhs true else marks

theorem markNullable_eq (rules : Array Rule) (marks : Array Bool) :
    markNullable rules marks = rules.toList.foldl markRule marks := by
  rw [markNullable, ← Array.foldl_toList]
  rfl

@[simp]
theorem size_markRule (marks : Array Bool) (r : Rule) :
    (markRule marks r).size = marks.size := by
  rw [markRule]
  split
  · exact Array.size_setIfInBounds
  · rfl

@[simp]
theorem size_foldl_markRule (marks : Array Bool) (rs : List Rule) :
    (rs.foldl markRule marks).size = marks.size := by
  induction rs generalizing marks with
  | nil => rfl
  | cons r rs ih => rw [List.foldl_cons, ih, size_markRule]

theorem size_markNullable (rules : Array Rule) (marks : Array Bool) :
    (markNullable rules marks).size = marks.size := by
  rw [markNullable_eq, size_foldl_markRule]

theorem marked_markRule_iff {r : Rule} (hr : r.lhs < marks.size) (s : SymbolId) :
    Marked (markRule marks r) s ↔
      Marked marks s ∨ s = r.lhs ∧ ∀ x ∈ r.rhs, Marked marks x := by
  rw [markRule]
  split
  next hall =>
    rw [marked_setIfInBounds_iff hr]
    rw [List.all_eq_true] at hall
    constructor
    · rintro (rfl | h)
      · exact Or.inr ⟨rfl, hall⟩
      · exact Or.inl h
    · rintro (h | ⟨rfl, -⟩)
      · exact Or.inr h
      · exact Or.inl rfl
  next hall =>
    refine ⟨Or.inl, ?_⟩
    rintro (h | ⟨-, h⟩)
    · exact h
    · exact absurd (List.all_eq_true.mpr h) hall

section

variable {rs : List Rule} (hrs : ∀ r ∈ rs, r.lhs < marks.size)
include hrs

theorem Marked.foldl {s : SymbolId} (h : Marked marks s) : Marked (rs.foldl markRule marks) s := by
  induction rs generalizing marks with
  | nil => exact h
  | cons r rs ih =>
    rw [List.forall_mem_cons] at hrs
    refine ih (by simpa using hrs.2) ?_
    exact (marked_markRule_iff hrs.1 s).mpr (Or.inl h)

/-- A pass that marks no other symbol finds the marks closed. -/
theorem marksClosed_of_foldl
    (hsame : ∀ s, Marked (rs.foldl markRule marks) s → Marked marks s) :
    MarksClosed rs marks := by
  induction rs generalizing marks with
  | nil => intro r hr; cases hr
  | cons r rs ih =>
    rw [List.forall_mem_cons] at hrs
    have hlater : ∀ r' ∈ rs, r'.lhs < (markRule marks r).size := by simpa using hrs.2
    -- Marks are only set, so that a pass without new marks has no step with a new one.
    have hstep : ∀ s, Marked (markRule marks r) s → Marked marks s :=
      fun s hs => hsame s (Marked.foldl hlater hs)
    have hiff (s : SymbolId) : Marked (markRule marks r) s ↔ Marked marks s :=
      ⟨hstep s, fun h => (marked_markRule_iff hrs.1 s).mpr (Or.inl h)⟩
    have hclosed := ih hlater fun s hs => (hiff s).mpr (hsame s hs)
    intro r' hr' hall
    rcases List.mem_cons.mp hr' with rfl | hr'
    · exact hstep _ ((marked_markRule_iff hrs.1 _).mpr (Or.inr ⟨rfl, hall⟩))
    · exact (hiff _).mp (hclosed r' hr' fun s hs => (hiff s).mpr (hall s hs))

end

/-! ### Enough passes -/

def markedSet (marks : Array Bool) : Finset SymbolId :=
  (Finset.range marks.size).filter (Marked marks)

theorem mem_markedSet_iff {s : SymbolId} : s ∈ markedSet marks ↔ Marked marks s := by
  rw [markedSet, Finset.mem_filter, Finset.mem_range]
  exact ⟨fun h => h.2, fun h => ⟨h.lt, h⟩⟩

section

variable (hrules : ∀ r ∈ rules.toList, r.lhs < marks.size)
include hrules

theorem Marked.markNullable {s : SymbolId} (h : Marked marks s) :
    Marked (RuleTable.markNullable rules marks) s := by
  rw [markNullable_eq]
  exact h.foldl hrules

/-- A pass that changes the marks marks one more symbol. -/
theorem card_markedSet_lt (hchange : markNullable rules marks ≠ marks) :
    (markedSet marks).card < (markedSet (markNullable rules marks)).card := by
  refine Finset.card_lt_card ⟨fun s hs => ?_, fun hsub => hchange ?_⟩
  · rw [mem_markedSet_iff] at hs ⊢
    exact hs.markNullable hrules
  · -- If no symbol is new, the marks are the same.
    have hiff (s : SymbolId) : Marked (markNullable rules marks) s ↔ Marked marks s := by
      rw [← mem_markedSet_iff, ← mem_markedSet_iff]
      exact ⟨fun h => hsub h, fun h => mem_markedSet_iff.mpr
        (Marked.markNullable hrules (mem_markedSet_iff.mp h))⟩
    refine Array.ext (size_markNullable rules marks) fun i hi hi' => ?_
    have hsame := hiff i
    rw [Marked, Marked, ← Bool.eq_iff_iff] at hsame
    simpa [Array.getD_eq_getD_getElem?, hi, hi'] using hsame

theorem marksClosed_of_card_le (hcard : marks.size ≤ (markedSet marks).card) :
    MarksClosed rules.toList marks := by
  -- All symbols are marked.
  have hall : markedSet marks = Finset.range marks.size := by
    refine Finset.eq_of_subset_of_card_le (Finset.filter_subset _ _) ?_
    rwa [Finset.card_range]
  intro r hr _
  rw [← mem_markedSet_iff, hall, Finset.mem_range]
  exact hrules r hr

end

/-- After the passes no rule marks another symbol: each of them marks one more symbol, until
    all are marked. -/
theorem marksClosed_nullableFrom {rounds : Nat} (hsize : marks.size = n)
    (hrules : ∀ r ∈ rules.toList, r.lhs < n) (hrounds : n ≤ rounds + (markedSet marks).card) :
    MarksClosed rules.toList (nullableFrom rules rounds marks) := by
  subst hsize
  induction rounds generalizing marks with
  | zero =>
    rw [nullableFrom]
    exact marksClosed_of_card_le hrules (by omega)
  | succ rounds ih =>
    rw [nullableFrom]
    split
    next hsame =>
      refine marksClosed_of_foldl hrules fun s hs => ?_
      rwa [← markNullable_eq, eq_of_beq hsame] at hs
    next hchange =>
      have hlt := card_markedSet_lt hrules fun h => hchange (beq_iff_eq.mpr h)
      have hsize := size_markNullable rules marks
      refine ih ?_ ?_
      · rwa [hsize]
      · rw [hsize]
        omega

/-! ### Marks and derivations -/

/-- Every marked symbol derives the empty list. -/
def MarksSound (t : RuleTable) (marks : Array Bool) : Prop :=
  ∀ s, Marked marks s → t.Derives [s] []

theorem derives_nil_of_forall {t : RuleTable} {ss : List SymbolId}
    (h : ∀ s ∈ ss, t.Derives [s] []) : t.Derives ss [] := by
  induction ss with
  | nil => exact .refl
  | cons s ss ih =>
    rw [List.forall_mem_cons] at h
    exact h.1.append (ih h.2)

/-- All symbols of a list that derives the empty list are marked. -/
theorem MarksClosed.marked {t : RuleTable} (hclosed : MarksClosed t.rules.toList marks)
    {ss : List SymbolId} (h : t.Derives ss []) : ∀ s ∈ ss, Marked marks s := by
  induction h using Relation.ReflTransGen.head_induction_on with
  | refl => simp
  | head hstep _ ih =>
    -- By induction all symbols that stand in for the rewritten one are marked.
    obtain @⟨id, s, front, back, hs⟩ := hstep
    rw [lhs?, Option.map_eq_some_iff] at hs
    obtain ⟨r, hr, rfl⟩ := hs
    have hrhs : t.rhs id = r.rhs := by rw [rhs, hr]
    have hmarked : Marked marks r.lhs := by
      refine hclosed r ?_ fun x hx => ih x (by simp [hrhs, hx])
      exact mem_rules_of_rule? hr
    intro x hx
    rcases List.mem_append.mp hx with hx | hx
    · exact ih x (by simp [hx])
    · rcases List.mem_cons.mp hx with rfl | hx
      · exact hmarked
      · exact ih x (by simp [hx])

theorem MarksSound.foldl {t : RuleTable} (hsound : t.MarksSound marks) {rs : List Rule}
    (hrs : ∀ r ∈ rs, r ∈ t.rules.toList) (hlt : ∀ r ∈ rs, r.lhs < marks.size) :
    t.MarksSound (rs.foldl markRule marks) := by
  induction rs generalizing marks with
  | nil => exact hsound
  | cons r rs ih =>
    rw [List.forall_mem_cons] at hrs hlt
    refine ih (fun s hs => ?_) hrs.2 (by simpa using hlt.2)
    rcases (marked_markRule_iff hlt.1 s).mp hs with h | ⟨rfl, hall⟩
    · exact hsound s h
    · obtain ⟨id, hr⟩ := Array.mem_iff_getElem?.mp (Array.mem_toList_iff.mp hrs.1)
      have hlhs : t.lhs? id = some r.lhs := by rw [lhs?, hr]; rfl
      refine .of_rhs hlhs (derives_nil_of_forall fun x hx => hsound x (hall x ?_))
      rwa [rhs, hr] at hx

theorem MarksSound.nullableFrom {t : RuleTable} (hsound : t.MarksSound marks)
    (hlt : ∀ r ∈ t.rules.toList, r.lhs < marks.size) (rounds : Nat) :
    t.MarksSound (nullableFrom t.rules rounds marks) := by
  induction rounds generalizing marks with
  | zero => exact hsound
  | succ rounds ih =>
    rw [RuleTable.nullableFrom]
    split
    · exact hsound
    · refine ih ?_ ?_
      · rw [markNullable_eq]
        exact hsound.foldl (fun r hr => hr) hlt
      · rw [size_markNullable]
        exact hlt

/-- The marks of a table are right: the symbols that are marked are those that derive
    the empty list. -/
theorem isNullable_ofRules_iff (hlt : ∀ r ∈ rules.toList, r.lhs < n) (s : SymbolId) :
    (ofRules rules n).isNullable s = true ↔ (ofRules rules n).Derives [s] [] := by
  have hsize : (Array.replicate n false).size = n := Array.size_replicate
  constructor
  · have hsound : (ofRules rules n).MarksSound (Array.replicate n false) := by
      intro s hs
      rw [Marked, Array.getD_eq_getD_getElem?, Array.getElem?_replicate] at hs
      split at hs <;> cases hs
    exact hsound.nullableFrom (by rwa [hsize]) n s
  · intro h
    have hclosed : MarksClosed (ofRules rules n).rules.toList (ofRules rules n).nullable :=
      marksClosed_nullableFrom hsize hlt (Nat.le_add_right _ _)
    exact hclosed.marked h s List.mem_cons_self

/-- The rules of a symbol are those with it on their left. -/
theorem indexed_ofRules (hlt : ∀ r ∈ rules.toList, r.lhs < n) : (ofRules rules n).Indexed := by
  intro s id
  rw [mem_rulesFor_ofRules, lhs?, Option.map_eq_some_iff]
  constructor
  · rintro ⟨-, r, hr, hs⟩
    exact ⟨r, hr, hs⟩
  · rintro ⟨r, hr, rfl⟩
    exact ⟨hlt r (mem_rules_of_rule? hr), r, hr, rfl⟩

end RuleTable

end Scannerless
