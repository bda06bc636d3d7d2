import Mathlib.Data.List.Nodup
import Scannerless.Proofs.Grammar.Elements

/-!
# Outlines of statements

The outline of an accepted list of statements has the names that the statements define, each
on one level. A name that is defined in tiers has one definition.

## Main definitions

- `Statement.structuralName?`, `Statement.lexicalName?` — the name that a statement defines.
- `Outline.Lists` — an outline has the names of some statements.

## Main statements

- `Outline.lists_of_ofStatements` — the outline of statements has their names.
- `Outline.structuralId?_eq_none` — a name with lexical rules has no structural ones.
- `Outline.distinctNames_of_ofStatements` — every name has one symbol.
-/

namespace Scannerless

namespace Statement

/-- The name that a structural statement defines. -/
def structuralName? : Statement → Option String
  | .structural lhs _ _ =>
    match Element.decode lhs with
    | .ok (.name name) => some name
    | _ => none
  | _ => none

/-- The name that a lexical statement defines. -/
def lexicalName? : Statement → Option String
  | .lexical lhs _ _ =>
    match Element.decode lhs with
    | .ok (.name name) => some name
    | _ => none
  | _ => none

/-- Whether a statement is a definition in tiers. -/
def isPrioritized : Statement → Bool
  | .structural _ tiers _ => 1 < tiers.length
  | _ => false

/-- Whether a statement has alternatives wherever it needs some. -/
def Inhabited : Statement → Prop
  | .structural _ tiers _ => tiers ≠ [] ∧ ∀ alternatives ∈ tiers, alternatives ≠ []
  | .lexical _ alternatives _ => alternatives ≠ []
  | _ => True

end Statement

namespace Outline

variable {o o' : Outline} {name : String} {ss : List Statement}

theorem isStructural_iff : o.isStructural name = true ↔ ∃ s, o.structuralId? name = some s := by
  rw [isStructural, structuralId?, ← Option.isSome_iff_exists, List.findIdx?_isSome]

theorem isLexical_iff : o.isLexical name = true ↔ ∃ s, o.lexicalId? name = some s := by
  rw [isLexical, lexicalId?, ← Option.isSome_iff_exists, Option.isSome_map, List.findIdx?_isSome]

/-- An outline has the names that some statements define, and a name that is defined in
    tiers is defined once. -/
structure Lists (o : Outline) (ss : List Statement) : Prop where
  structural : ∀ name, o.isStructural name = true ↔
    ∃ s ∈ ss, s.structuralName? = some name
  lexical : ∀ name, o.isLexical name = true ↔ ∃ s ∈ ss, s.lexicalName? = some name
  inhabited : ∀ s ∈ ss, s.Inhabited
  prioritized : ∀ s ∈ ss, s.isPrioritized = true → ∀ name, s.structuralName? = some name →
    o.prioritized.contains name = true
  unique : ∀ name, o.prioritized.contains name = true →
    (ss.filter fun s => s.structuralName? == some name).length = 1

theorem any_name_append {names : List (String × Nat)} {defined : String} {offset : Nat} :
    ((if names.any (·.1 == defined) then names else names ++ [(defined, offset)]).any
      (·.1 == name)) = true ↔ names.any (·.1 == name) = true ∨ defined = name := by
  by_cases hdefined : names.any (·.1 == defined) = true
  · rw [if_pos hdefined]
    constructor
    · exact Or.inl
    · rintro (h | rfl)
      · exact h
      · exact hdefined
  · rw [if_neg hdefined, List.any_append]
    simp

theorem structural_name {lhs : String} {tiers : List (List Alternative)} {offset : Nat}
    (h : Element.decode lhs = .ok (.name name)) :
    (Statement.structural lhs tiers offset).structuralName? = some name := by
  simp only [Statement.structuralName?, h]

theorem lexical_name {lhs : String} {alternatives : List Alternative} {offset : Nat}
    (h : Element.decode lhs = .ok (.name name)) :
    (Statement.lexical lhs alternatives offset).lexicalName? = some name := by
  simp only [Statement.lexicalName?, h]

/-- What an accepted statement does to an outline: a definition enters its name, and others leave
    the names as they are. -/
inductive Adds (o o' : Outline) : Statement → Prop where
  | structural {name lhs : String} {tiers : List (List Alternative)} {offset : Nat}
      (hlhs : Element.decode lhs = .ok (.name name))
      (h : o.addStructural name tiers offset = .ok o') : Adds o o' (.structural lhs tiers offset)
  | lexical {name lhs : String} {alternatives : List Alternative} {offset : Nat}
      (hlhs : Element.decode lhs = .ok (.name name))
      (h : o.addLexical name alternatives offset = .ok o') :
      Adds o o' (.lexical lhs alternatives offset)
  | nameless {s : Statement} (hnone : s.structuralName? = none ∧ s.lexicalName? = none)
      (hinhabited : s.Inhabited) (hstructural : o'.structural = o.structural)
      (hlexical : o'.lexical = o.lexical) (hprioritized : o'.prioritized = o.prioritized) :
      Adds o o' s

theorem adds_of_add {s : Statement} (h : o.add s = .ok o') : o.Adds o' s := by
  cases s with
  | structural lhs tiers offset =>
    obtain ⟨name, hname, h⟩ := bind_eq_ok_iff.mp h
    exact .structural (Element.decodeNameAt_eq_ok.mp hname) h
  | lexical lhs alternatives offset =>
    obtain ⟨name, hname, h⟩ := bind_eq_ok_iff.mp h
    exact .lexical (Element.decodeNameAt_eq_ok.mp hname) h
  | start symbol offset =>
    rw [add] at h
    split at h
    · cases h
    · obtain rfl := Except.ok.inj h
      exact .nameless ⟨rfl, rfl⟩ trivial rfl rfl rfl
  | default adverbs offset =>
    rw [add] at h
    split at h
    · cases h
    · obtain ⟨action, -, rfl⟩ := map_eq_ok_iff.mp h
      exact .nameless ⟨rfl, rfl⟩ trivial rfl rfl rfl
  | lexemeDefault adverbs offset =>
    rw [add] at h
    split at h
    · cases h
    · obtain ⟨on, -, rfl⟩ := map_eq_ok_iff.mp h
      exact .nameless ⟨rfl, rfl⟩ trivial rfl rfl rfl
  | discard element offset =>
    obtain rfl := Except.ok.inj h
    exact .nameless ⟨rfl, rfl⟩ trivial rfl rfl rfl

/-- A statement that defines no name changes no names. -/
theorem Lists.of_nameless (ho : o.Lists ss) {s : Statement} (hstructural : s.structuralName? = none)
    (hlexical : s.lexicalName? = none) (hinhabited : s.Inhabited)
    (hstructurals : o'.structural = o.structural) (hlexicals : o'.lexical = o.lexical)
    (hprioritized : o'.prioritized = o.prioritized) : o'.Lists (ss ++ [s]) where
  structural name := by
    rw [isStructural, hstructurals, ← isStructural, ho.structural]
    simp [hstructural]
  lexical name := by
    rw [isLexical, hlexicals, ← isLexical, ho.lexical]
    simp [hlexical]
  inhabited x hx := by
    rcases List.mem_append.mp hx with hx | hx
    · exact ho.inhabited x hx
    · rwa [List.mem_singleton.mp hx]
  prioritized x hx hx' name hname := by
    rw [hprioritized]
    rcases List.mem_append.mp hx with hx | hx
    · exact ho.prioritized x hx hx' name hname
    · rw [List.mem_singleton.mp hx, hstructural] at hname
      cases hname
  unique name hname := by
    rw [hprioritized] at hname
    rw [List.filter_append]
    simpa [hstructural] using ho.unique name hname

/-- What an accepted structural definition enters: it has alternatives, and if its name is
    defined in tiers, it is the first one of its name. -/
theorem addStructural_eq_ok {tiers : List (List Alternative)} {offset : Nat}
    (h : o.addStructural name tiers offset = .ok o') :
    (tiers ≠ [] ∧ ∀ alternatives ∈ tiers, alternatives ≠ []) ∧
      (tiers.length > 1 ∨ o.prioritized.contains name = true → o.isStructural name ≠ true) ∧
      o' = { o with
        structural :=
          if o.isStructural name then o.structural else o.structural ++ [(name, offset)]
        prioritized := if tiers.length > 1 then name :: o.prioritized else o.prioritized } := by
  rw [Outline.addStructural] at h
  split at h
  · cases h
  next hnonempty =>
    split at h
    · cases h
    next honce =>
      simp only [Bool.or_eq_true, List.any_eq_true, List.isEmpty_iff, not_or, not_exists,
        not_and] at hnonempty
      simp only [Bool.and_eq_true, Bool.or_eq_true, decide_eq_true_eq, not_and] at honce
      exact ⟨hnonempty, honce, (Except.ok.inj h).symm⟩

/-- What an accepted lexical definition enters. -/
theorem addLexical_eq_ok {alternatives : List Alternative} {offset : Nat}
    (h : o.addLexical name alternatives offset = .ok o') :
    alternatives ≠ [] ∧ o' = { o with
      lexical := if o.isLexical name then o.lexical else o.lexical ++ [(name, offset)] } := by
  rw [Outline.addLexical] at h
  split at h
  · cases h
  next hnonempty =>
    exact ⟨by simpa using hnonempty, (Except.ok.inj h).symm⟩

theorem contains_prioritized {names : List String} {count : Nat} {other : String} :
    (if count > 1 then name :: names else names).contains other = true ↔
      names.contains other = true ∨ count > 1 ∧ name = other := by
  split
  next h =>
    simp only [List.contains_cons, Bool.or_eq_true, beq_iff_eq, h, true_and]
    exact or_comm.trans (or_congr_right eq_comm)
  next h => simp [h]

theorem Lists.addStructural (ho : o.Lists ss) {lhs : String} {tiers : List (List Alternative)}
    {offset : Nat} (hlhs : Element.decode lhs = .ok (.name name))
    (h : o.addStructural name tiers offset = .ok o') :
    o'.Lists (ss ++ [.structural lhs tiers offset]) := by
  have hdefines : (Statement.structural lhs tiers offset).structuralName? = some name :=
    structural_name hlhs
  obtain ⟨hinhabited, honce, rfl⟩ := addStructural_eq_ok h
  refine ⟨fun other => ?_, fun other => ?_, fun x hx => ?_, fun x hx hx' other hother => ?_,
    fun other hother => ?_⟩
  · refine any_name_append.trans ?_
    rw [← isStructural, ho.structural]
    simp [or_and_right, exists_or, hdefines]
  · refine (ho.lexical other).trans ?_
    simp [Statement.lexicalName?, or_and_right, exists_or]
  · rcases List.mem_append.mp hx with hx | hx
    · exact ho.inhabited x hx
    · rw [List.mem_singleton.mp hx]
      exact hinhabited
  · refine contains_prioritized.mpr ?_
    rcases List.mem_append.mp hx with hx | hx
    · exact Or.inl (ho.prioritized x hx hx' other hother)
    · rw [List.mem_singleton.mp hx] at hx' hother
      rw [hdefines] at hother
      exact Or.inr ⟨of_decide_eq_true hx', Option.some.inj hother⟩
  · replace hother := contains_prioritized.mp hother
    by_cases hsame : name = other
    · subst hsame
      -- A name that is defined in tiers has not been defined before.
      have hnew : o.isStructural name ≠ true := honce (hother.symm.imp And.left id)
      have hnone : ss.filter (fun s => s.structuralName? == some name) = [] := by
        rw [List.filter_eq_nil_iff]
        exact fun s hs heq => hnew ((ho.structural name).mpr ⟨s, hs, eq_of_beq heq⟩)
      simp [List.filter_append, hnone, hdefines]
    · have hold := ho.unique other (hother.resolve_right fun h => hsame h.2)
      have hne : ((some name : Option String) == some other) = false := by simpa using hsame
      simpa [List.filter_append, hdefines, hne] using hold

theorem Lists.addLexical (ho : o.Lists ss) {lhs : String} {alternatives : List Alternative}
    {offset : Nat} (hlhs : Element.decode lhs = .ok (.name name))
    (h : o.addLexical name alternatives offset = .ok o') :
    o'.Lists (ss ++ [.lexical lhs alternatives offset]) := by
  have hdefines : (Statement.lexical lhs alternatives offset).lexicalName? = some name :=
    lexical_name hlhs
  obtain ⟨hinhabited, rfl⟩ := addLexical_eq_ok h
  refine ⟨fun other => ?_, fun other => ?_, fun x hx => ?_, fun x hx hx' other hother => ?_,
    fun other hother => ?_⟩
  · refine (ho.structural other).trans ?_
    simp [Statement.structuralName?, or_and_right, exists_or]
  · refine any_name_append.trans ?_
    rw [← isLexical, ho.lexical]
    simp [or_and_right, exists_or, hdefines]
  · rcases List.mem_append.mp hx with hx | hx
    · exact ho.inhabited x hx
    · rw [List.mem_singleton.mp hx]
      exact hinhabited
  · rcases List.mem_append.mp hx with hx | hx
    · exact ho.prioritized x hx hx' other hother
    · rw [List.mem_singleton.mp hx] at hother
      cases hother
  · have hold := ho.unique other hother
    simpa [List.filter_append, Statement.structuralName?] using hold

theorem Lists.add (ho : o.Lists ss) {s : Statement} (h : o.add s = .ok o') :
    o'.Lists (ss ++ [s]) := by
  cases adds_of_add h with
  | structural hlhs hadd => exact ho.addStructural hlhs hadd
  | lexical hlhs hadd => exact ho.addLexical hlhs hadd
  | nameless hnone hinhabited hstructural hlexical hprioritized =>
    exact ho.of_nameless hnone.1 hnone.2 hinhabited hstructural hlexical hprioritized

theorem lists_empty : empty.Lists [] where
  structural name := by simp [isStructural, empty]
  lexical name := by simp [isLexical, empty]
  inhabited := by simp
  prioritized := by simp
  unique name hname := by simp [empty] at hname

theorem lists_of_foldlM {ss' : List Statement} (ho : o.Lists ss)
    (h : ss'.foldlM Outline.add o = .ok o') : o'.Lists (ss ++ ss') := by
  induction ss' generalizing o ss with
  | nil =>
    cases h
    simpa using ho
  | cons s ss' ih =>
    rw [List.foldlM_cons, bind_eq_ok_iff] at h
    obtain ⟨o₁, hs, h⟩ := h
    simpa using ih (ho.add hs) h

theorem ofStatements_eq_ok (h : ofStatements ss = .ok o) :
    ss.foldlM Outline.add empty = .ok o ∧ o.requireOneLevel = .ok () := by
  rw [ofStatements, bind_eq_ok_iff] at h
  obtain ⟨o', hfold, h⟩ := h
  obtain ⟨_, hlevel, h⟩ := bind_eq_ok_iff.mp h
  cases h
  exact ⟨hfold, hlevel⟩

/-- The outline of statements has their names. -/
theorem lists_of_ofStatements (h : ofStatements ss = .ok o) : o.Lists ss := by
  simpa using lists_of_foldlM lists_empty (ofStatements_eq_ok h).1

/-- A name with lexical rules has no structural ones. -/
theorem structuralId?_eq_none (h : ofStatements ss = .ok o) {s : SymbolId}
    (hs : o.lexicalId? name = some s) : o.structuralId? name = none := by
  have hlevel := (ofStatements_eq_ok h).2
  rw [requireOneLevel] at hlevel
  split at hlevel
  · cases hlevel
  next hnone =>
    obtain ⟨i, offset, hi, -⟩ := lexicalId?_eq_some hs
    rw [List.find?_eq_none] at hnone
    have hname := hnone _ (List.mem_of_getElem? hi)
    refine Option.eq_none_iff_forall_ne_some.mpr fun s' hs' => ?_
    exact hname (isStructural_iff.mpr ⟨s', hs'⟩)

/-! ### Distinct names -/

/-- Names with symbols of their own: none of them comes twice. -/
def DistinctNames (names : List (String × Nat)) : Prop :=
  (names.map (·.1)).Nodup

theorem DistinctNames.append {names : List (String × Nat)} (h : DistinctNames names)
    {defined : String} (offset : Nat) :
    DistinctNames (if names.any (·.1 == defined) then names else names ++ [(defined, offset)]) := by
  split
  · exact h
  next hnew =>
    rw [DistinctNames, List.map_append, List.nodup_append]
    refine ⟨h, by simp, ?_⟩
    rintro _ hold _ hdefined rfl
    obtain ⟨e, he, rfl⟩ := List.mem_map.mp hold
    have heq : e.1 = defined := by simpa using hdefined
    exact hnew (List.any_eq_true.mpr ⟨e, he, beq_iff_eq.mpr heq⟩)

/-- A name is found where it stands. -/
theorem DistinctNames.findIdx? {names : List (String × Nat)} (h : DistinctNames names)
    {i offset : Nat} (hi : names[i]? = some (name, offset)) :
    names.findIdx? (·.1 == name) = some i := by
  obtain ⟨hlt, hget⟩ := List.getElem?_eq_some_iff.mp hi
  rw [List.findIdx?_eq_some_iff_getElem]
  refine ⟨hlt, by simp [hget], fun j hj hname => ?_⟩
  have hsame : (names.map (·.1))[j]? = (names.map (·.1))[i]? := by
    have hjlt := Nat.lt_trans hj hlt
    simpa [List.getElem?_map, hi, List.getElem?_eq_getElem hjlt] using hname
  have hlength : i < (names.map (·.1)).length := by simpa using hlt
  exact List.nodup_iff_getElem?_ne_getElem?.mp h j i hj hlength hsame

theorem distinctNames_of_add {s : Statement} (h : o.add s = .ok o')
    (hstructural : DistinctNames o.structural) (hlexical : DistinctNames o.lexical) :
    DistinctNames o'.structural ∧ DistinctNames o'.lexical := by
  cases adds_of_add h with
  | @structural name _ tiers offset _ hadd =>
    obtain ⟨-, -, rfl⟩ := addStructural_eq_ok hadd
    exact ⟨hstructural.append offset, hlexical⟩
  | @lexical name _ alternatives offset _ hadd =>
    obtain ⟨-, rfl⟩ := addLexical_eq_ok hadd
    exact ⟨hstructural, hlexical.append offset⟩
  | nameless _ _ hsame hsame' _ =>
    rw [hsame, hsame']
    exact ⟨hstructural, hlexical⟩

/-- The names of an outline are distinct on each level. -/
theorem distinctNames_of_ofStatements (h : ofStatements ss = .ok o) :
    DistinctNames o.structural ∧ DistinctNames o.lexical := by
  have hfold := (ofStatements_eq_ok h).1
  clear h
  suffices hsuffices : ∀ o₀ : Outline, DistinctNames o₀.structural → DistinctNames o₀.lexical →
      ss.foldlM add o₀ = .ok o → DistinctNames o.structural ∧ DistinctNames o.lexical from
    hsuffices empty List.nodup_nil List.nodup_nil hfold
  clear hfold
  induction ss with
  | nil =>
    intro o₀ hstructural hlexical h
    obtain rfl := Except.ok.inj h
    exact ⟨hstructural, hlexical⟩
  | cons s ss ih =>
    intro o₀ hstructural hlexical h
    rw [List.foldlM_cons, bind_eq_ok_iff] at h
    obtain ⟨o₁, hs, h⟩ := h
    obtain ⟨hstructural, hlexical⟩ := distinctNames_of_add hs hstructural hlexical
    exact ih o₁ hstructural hlexical h

/-- A name of the outline that some structural statement defines. -/
theorem exists_structural_statement (h : ofStatements ss = .ok o) {s : SymbolId}
    (hs : s < o.structural.length) : ∃ name, o.structuralId? name = some s ∧
      ∃ x ∈ ss, x.structuralName? = some name := by
  have hentry := List.getElem?_eq_getElem hs
  have hid := (distinctNames_of_ofStatements h).1.findIdx? hentry
  refine ⟨_, hid, ?_⟩
  rw [← (lists_of_ofStatements h).structural, isStructural_iff]
  exact ⟨s, hid⟩

/-- A name of the outline that some lexical statement defines. -/
theorem exists_lexical_statement (h : ofStatements ss = .ok o) {i : Nat}
    (hi : i < o.lexical.length) : ∃ name, o.lexicalId? name = some (o.structural.length + i) ∧
      ∃ x ∈ ss, x.lexicalName? = some name := by
  have hentry := List.getElem?_eq_getElem hi
  have hid : o.lexicalId? (o.lexical[i]).1 = some (o.structural.length + i) :=
    congrArg (Option.map _) ((distinctNames_of_ofStatements h).2.findIdx? hentry)
  refine ⟨_, hid, ?_⟩
  rw [← (lists_of_ofStatements h).lexical, isLexical_iff]
  exact ⟨_, hid⟩

end Outline

end Scannerless
