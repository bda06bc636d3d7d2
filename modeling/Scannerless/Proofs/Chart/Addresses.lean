import Scannerless.Chart.Addition

/-!
# Items and sources by address

An addition to a chart leaves every item at its address and every source in its
place. What is at an address after an addition is told here once; no later module
looks into the index of a set again.

## Main definitions

- `Chart.sources` — the sources that a chart has at an address.
- `Chart.Holds` — an item is in a set, with a source if one is given.

## Main statements

- `Chart.item?_add_of_some`, `Chart.item?_add_cases` — an addition moves no item, and
  a new item is the one that was added.
- `Chart.sources_add_cases` — an addition puts its source behind those of its item
  and changes no other ones.
- `Chart.address_unique` — an item has one address in a set.
-/

namespace Scannerless

theorem Roster.index?_eq_some_iff {α : Type} [DecidableEq α] {order : α → α → Ordering}
    (r : Roster α order) (x : α) (i : Nat) :
    r.index? x = some i ↔ r.elements[i]? = some x := by
  rw [index?, r.positions_eq, List.findIdx?_eq_some_iff_getElem, ← Array.getElem?_toList,
    List.getElem?_eq_some_iff]
  constructor
  · rintro ⟨hi, hx, -⟩
    exact ⟨hi, by simpa using hx⟩
  · rintro ⟨hi, hx⟩
    refine ⟨hi, by simpa using hx, fun j hj hsame => ?_⟩
    have hne := List.pairwise_iff_getElem.mp r.nodup j i (by omega) hi hj
    exact hne (hx ▸ by simpa using hsame)

/-- Entering an element leaves what was there where it was. -/
theorem Roster.toList_insert_cases {α : Type} [DecidableEq α] {order : α → α → Ordering}
    [Std.TransCmp order] [Std.LawfulEqCmp order] (r : Roster α order) (x : α) :
    (r.insert x).toList = r.toList ∧ x ∈ r.toList ∨
      (r.insert x).toList = r.toList ++ [x] ∧ x ∉ r.toList := by
  rw [toList_insert]
  split
  · exact Or.inl ⟨rfl, ‹_›⟩
  · exact Or.inr ⟨rfl, ‹_›⟩

/-- A source that is added is among the others or comes behind them. -/
theorem Sources.addTo_cases (sources : Sources) (src : Option Source) :
    (Sources.addTo sources src).toList = sources.toList ∧ (∀ s, src = some s → s ∈ sources.toList) ∨
      ∃ s, src = some s ∧ s ∉ sources.toList ∧
        (Sources.addTo sources src).toList = sources.toList ++ [s] := by
  cases src with
  | none => exact Or.inl ⟨rfl, by simp⟩
  | some s =>
    rcases sources.toList_insert_cases s with ⟨hsame, hmem⟩ | ⟨hnew, hmem⟩
    · exact Or.inl ⟨hsame, by simpa using hmem⟩
    · exact Or.inr ⟨s, rfl, hmem, hnew⟩

/-! ### Sets -/

namespace StateSet

variable {t : RuleTable}

theorem item?_eq (set : StateSet t) (i : Nat) : set.item? i = set.items[i]? :=
  Array.getElem?_toList.symm

theorem mem_items_iff (set : StateSet t) (it : Item) :
    it ∈ set.items ↔ ∃ i, set.item? i = some it := by
  simp only [item?_eq, List.mem_iff_getElem?]

theorem item?_lt {set : StateSet t} {i : Nat} {it : Item} (h : set.item? i = some it) :
    i < set.size := by
  rw [item?_eq] at h
  obtain ⟨hi, -⟩ := List.getElem?_eq_some_iff.mp h
  rwa [length_items] at hi

theorem index_unique {set : StateSet t} {i j : Nat} {it : Item} (hi : set.item? i = some it)
    (hj : set.item? j = some it) : i = j := by
  rw [item?_eq] at hi hj
  have hlt := (List.getElem?_eq_some_iff.mp hi).1
  exact (List.getElem?_inj hlt set.nodup_items).mp (hi.trans hj.symm)

theorem item?_add_of_some {set : StateSet t} {i : Nat} {w : Item} (it : Item)
    (src : Option Source) (h : set.item? i = some w) : (set.add it src).item? i = some w := by
  rw [item?_eq] at h ⊢
  rw [items_add]
  split
  · exact h
  · rw [List.getElem?_append_left (List.getElem?_eq_some_iff.mp h).1]
    exact h

/-- Where nothing stood there is the item that was added. -/
theorem item?_add_cases {set : StateSet t} {i : Nat} {w it : Item} {src : Option Source}
    (h : (set.add it src).item? i = some w) : set.item? i = some w ∨ w = it := by
  rw [item?_eq, items_add] at h
  rw [item?_eq]
  split at h
  · exact Or.inl h
  · rw [List.getElem?_append] at h
    split at h
    · exact Or.inl h
    · exact Or.inr (List.mem_singleton.mp (List.mem_of_getElem? h))

theorem sourcesAt_of_none {set : StateSet t} {i : Nat} (h : set.item? i = none) :
    (set.sourcesAt i).toList = [] := by
  have hi : set.sources.size ≤ i := by
    rw [set.size_sources]
    exact Array.getElem?_eq_none_iff.mp h
  rw [sourcesAt, Array.getD_eq_getD_getElem?, Array.getElem?_eq_none hi]
  rfl

theorem sourcesAt_addSource {set : StateSet t} {k : Nat} (h : k < set.size)
    (src : Option Source) (i : Nat) :
    (set.addSource k src).sourcesAt i =
      if i = k then (Sources.addTo (set.sources.getD k .empty) src).elements
      else set.sourcesAt i := by
  have hk : k < set.sources.size := by rwa [set.size_sources]
  simp only [sourcesAt, addSource, Array.getD_eq_getD_getElem?, Array.getElem?_modify]
  by_cases hi : k = i
  · subst hi
    simp [hk]
  · simp [hi, Ne.symm hi]

theorem sourcesAt_push {set : StateSet t} {it : Item} (src : Option Source)
    (new : set.roster.index? it = none) (i : Nat) :
    (set.push it src new).sourcesAt i =
      if i = set.size then (Sources.addTo .empty src).elements else set.sourcesAt i := by
  have hsize : set.sources.size = set.size := set.size_sources
  simp only [sourcesAt, push, Array.getD_eq_getD_getElem?, Array.getElem?_push, hsize]
  split <;> rfl

/-- An addition puts its source behind those of its item unless it is among
    them, and changes no other sources. -/
theorem sourcesAt_add (set : StateSet t) (it : Item) (src : Option Source) (i : Nat) :
    ((set.add it src).sourcesAt i).toList = (set.sourcesAt i).toList ∧
        (∀ s, src = some s → (set.add it src).item? i = some it → s ∈ (set.sourcesAt i).toList) ∨
      ∃ s, src = some s ∧ (set.add it src).item? i = some it ∧ s ∉ (set.sourcesAt i).toList ∧
        ((set.add it src).sourcesAt i).toList = (set.sourcesAt i).toList ++ [s] := by
  -- Which address has the item does not depend on whether it is new.
  obtain ⟨k, hk, hother, hself⟩ : ∃ k, (set.add it src).item? k = some it ∧
      (∀ i, i ≠ k → (set.add it src).sourcesAt i = set.sourcesAt i) ∧
      ∃ sources : Sources, sources.toList = (set.sourcesAt k).toList ∧
        (set.add it src).sourcesAt k = (Sources.addTo sources src).elements := by
    rw [add]
    split
    next k found =>
      have hk : set.item? k = some it := (set.roster.index?_eq_some_iff it k).mp found
      have hlt : k < set.size := item?_lt hk
      refine ⟨k, hk, fun i hi => ?_, _, rfl, ?_⟩
      · rw [sourcesAt_addSource hlt, if_neg hi]
      · rw [sourcesAt_addSource hlt, if_pos rfl]
    next new =>
      refine ⟨set.size, ?_, fun i hi => ?_, .empty, ?_, ?_⟩
      · exact Array.getElem?_push_size
      · rw [sourcesAt_push, if_neg hi]
      · have hnone : set.item? set.size = none := Array.getElem?_eq_none (Nat.le_refl _)
        rw [sourcesAt_of_none hnone]
        rfl
      · rw [sourcesAt_push, if_pos rfl]
  -- At this address the source goes behind the others, at any other one nothing changes.
  by_cases hi : i = k
  · subst hi
    obtain ⟨sources, hsources, hadd⟩ := hself
    rw [hadd, ← hsources]
    rcases Sources.addTo_cases sources src with ⟨hsame, hmem⟩ | ⟨s, hs, hmem, hnew⟩
    · exact Or.inl ⟨hsame, fun s hs _ => hmem s hs⟩
    · exact Or.inr ⟨s, hs, hk, hmem, hnew⟩
  · exact Or.inl ⟨by rw [hother i hi], fun _ _ h => absurd (index_unique h hk) hi⟩

end StateSet

/-! ### Charts -/

namespace Chart

variable {t : RuleTable}

/-- The sources of the item at an address, in the order they were added. -/
def sources (c : Chart t) (ref : ItemRef) : List Source :=
  ((c.setAt ref.set).sourcesAt ref.index).toList

/-- A set has an item, with a source if one is given. -/
def Holds (c : Chart t) (k : Nat) (it : Item) (src : Option Source) : Prop :=
  ∃ i, c.item? ⟨k, i⟩ = some it ∧ ∀ s, src = some s → s ∈ c.sources ⟨k, i⟩

theorem entry?_eq (c : Chart t) (ref : ItemRef) :
    c.entry? ref =
      (c.item? ref).map fun it => ⟨it, (c.setAt ref.set).sourcesAt ref.index⟩ :=
  rfl

theorem mem_items_iff (c : Chart t) (k : Nat) (it : Item) :
    it ∈ (c.setAt k).items ↔ ∃ i, c.item? ⟨k, i⟩ = some it :=
  (c.setAt k).mem_items_iff it

theorem setAt_eq_empty {c : Chart t} {k : Nat} (h : c.sets.size ≤ k) :
    c.setAt k = .empty := by
  rw [setAt, Array.getD_eq_getD_getElem?, Array.getElem?_eq_none h]
  rfl

theorem set_lt_of_item? {c : Chart t} {ref : ItemRef} {it : Item}
    (h : c.item? ref = some it) : ref.set < c.sets.size := by
  refine Nat.lt_of_not_le fun hle => ?_
  rw [item?, setAt_eq_empty hle] at h
  cases h

theorem address_unique {c : Chart t} {ref other : ItemRef} {it : Item}
    (h : c.item? ref = some it) (h' : c.item? other = some it) (hset : ref.set = other.set) :
    ref = other := by
  obtain ⟨k, i⟩ := ref
  obtain ⟨k', i'⟩ := other
  obtain rfl : k = k' := hset
  obtain rfl : i = i' := StateSet.index_unique h h'
  rfl

theorem item?_add_of_some {c : Chart t} {ref : ItemRef} {w : Item} (k : Nat) (it : Item)
    (src : Option Source) (h : c.item? ref = some w) : (c.add k it src).item? ref = some w := by
  have hlt := set_lt_of_item? h
  by_cases hk : ref.set = k
  · subst hk
    rw [item?, setAt_add_self hlt]
    exact StateSet.item?_add_of_some it src h
  · rwa [item?, setAt_add_of_ne c hk]

/-- An item that comes with an addition is the one that was added. -/
theorem item?_add_cases {c : Chart t} {ref : ItemRef} {w it : Item} {k : Nat}
    {src : Option Source} (h : (c.add k it src).item? ref = some w) :
    c.item? ref = some w ∨ ref.set = k ∧ w = it := by
  have hlt := set_lt_of_item? h
  rw [size_sets_add] at hlt
  by_cases hk : ref.set = k
  · subst hk
    rw [item?, setAt_add_self hlt] at h
    exact (StateSet.item?_add_cases h).imp_right fun hw => ⟨rfl, hw⟩
  · rw [item?, setAt_add_of_ne c hk] at h
    exact Or.inl h

/-- An addition puts its source behind those of its item, or changes no
    sources at an address. -/
theorem sources_add_cases (c : Chart t) (k : Nat) (it : Item) (src : Option Source)
    (ref : ItemRef) :
    (c.add k it src).sources ref = c.sources ref ∨
      ∃ s, src = some s ∧ ref.set = k ∧ (c.add k it src).item? ref = some it ∧
        (c.add k it src).sources ref = c.sources ref ++ [s] := by
  by_cases hk : ref.set = k
  · subst hk
    by_cases hlt : ref.set < c.sets.size
    · rw [sources, item?, setAt_add_self hlt]
      rcases (c.setAt ref.set).sourcesAt_add it src ref.index with h | ⟨s, hs, hit, -, h⟩
      · exact Or.inl h.1
      · exact Or.inr ⟨s, hs, rfl, hit, h⟩
    · left
      have hlt' : (c.add ref.set it src).sets.size ≤ ref.set := by
        rw [size_sets_add]
        exact Nat.le_of_not_lt hlt
      rw [sources, sources, setAt_eq_empty hlt', setAt_eq_empty (Nat.le_of_not_lt hlt)]
  · left
    rw [sources, sources, setAt_add_of_ne c hk]

theorem sources_prefix_add (c : Chart t) (k : Nat) (it : Item) (src : Option Source)
    (ref : ItemRef) : c.sources ref <+: (c.add k it src).sources ref := by
  rcases c.sources_add_cases k it src ref with h | ⟨s, -, -, -, h⟩
  · exact h.symm ▸ List.prefix_refl _
  · exact h.symm ▸ List.prefix_append _ _

/-- A source that comes with an addition is the one that was added, at its item. -/
theorem mem_sources_add {c : Chart t} {k : Nat} {it : Item} {src : Option Source} {ref : ItemRef}
    {s : Source} (h : s ∈ (c.add k it src).sources ref) :
    s ∈ c.sources ref ∨ src = some s ∧ ref.set = k ∧ (c.add k it src).item? ref = some it := by
  rcases c.sources_add_cases k it src ref with hsame | ⟨s', hs', hset, hit, hnew⟩
  · exact Or.inl (hsame ▸ h)
  · rw [hnew] at h
    rcases List.mem_append.mp h with hold | hlast
    · exact Or.inl hold
    · obtain rfl := List.mem_singleton.mp hlast
      exact Or.inr ⟨hs', hset, hit⟩

theorem holds_add_self {c : Chart t} {k : Nat} (h : k < c.sets.size) (it : Item)
    (src : Option Source) : (c.add k it src).Holds k it src := by
  have hmem : it ∈ ((c.add k it src).setAt k).items := by
    rw [setAt_add_self h, StateSet.items_add]
    split
    · assumption
    · simp
  obtain ⟨i, hi⟩ := (mem_items_iff _ _ _).mp hmem
  refine ⟨i, hi, fun s hs => ?_⟩
  rw [item?, setAt_add_self h] at hi
  rw [sources, setAt_add_self h]
  rcases (c.setAt k).sourcesAt_add it src i with ⟨hsame, hold⟩ | ⟨s', hs', -, -, hnew⟩
  · rw [hsame]
    exact hold s hs hi
  · obtain rfl : s' = s := by simpa [hs'] using hs
    rw [hnew]
    simp

theorem Holds.add {c : Chart t} {j : Nat} {w : Item} {s : Option Source}
    (h : c.Holds j w s) (k : Nat) (it : Item) (src : Option Source) :
    (c.add k it src).Holds j w s := by
  obtain ⟨i, hi, hs⟩ := h
  refine ⟨i, item?_add_of_some k it src hi, fun s' hs' => ?_⟩
  exact (c.sources_prefix_add k it src ⟨j, i⟩).subset (hs s' hs')

/-- Only items have sources. -/
theorem sources_of_none {c : Chart t} {ref : ItemRef} (h : c.item? ref = none) :
    c.sources ref = [] :=
  StateSet.sourcesAt_of_none h

theorem exists_item?_of_mem_sources {c : Chart t} {ref : ItemRef} {s : Source}
    (h : s ∈ c.sources ref) : ∃ it, c.item? ref = some it := by
  cases hit : c.item? ref with
  | some it => exact ⟨it, rfl⟩
  | none =>
    rw [sources_of_none hit] at h
    cases h

theorem nodup_sources (c : Chart t) (ref : ItemRef) : (c.sources ref).Nodup :=
  (c.setAt ref.set).nodup_sourcesAt ref.index

end Chart

end Scannerless
