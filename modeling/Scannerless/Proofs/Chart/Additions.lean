import Scannerless.Proofs.Chart.Addresses
import Scannerless.Proofs.Derivation

/-!
# What the items of a chart call for

A chart grows by one addition after the other. An addition is called for by the
items that are there: a rule of the symbol after a dot is predicted, an item moves
over a symbol that another one completes, and over a token. A chart arises if every
addition was called for when it was made.

## Main definitions

- `Chart.Calls` — the addresses that call for an addition.
- `Chart.Arises` — a chart that was built by additions called for.

## Main statements

- `Chart.Arises.applyAll` — additions that a chart calls for may be made together.
- `Chart.Arises.spans` — the matched part of an item spans its origin and its set.
- `Chart.Arises.calls_of_mem_sources` — every source was called for.
-/

namespace Scannerless

/-- The set that an item was moved from over a token. -/
def Source.scannedFrom? : Source → Option Nat
  | .scanned source _ => some source.set
  | .completed _ _ => none

def Addition.scannedFrom? (a : Addition) : Option Nat :=
  a.source.bind Source.scannedFrom?

namespace Chart

variable {t : RuleTable} {c : Chart t} {starts : List SymbolId} {l : Lattice}

/-- What was added is there. -/
def Has (c : Chart t) (a : Addition) : Prop :=
  c.Holds a.place a.item a.source

@[simp]
theorem applyAll_nil (c : Chart t) : c.applyAll [] = c :=
  rfl

@[simp]
theorem applyAll_cons (c : Chart t) (a : Addition) (as : List Addition) :
    c.applyAll (a :: as) = (c.apply a).applyAll as :=
  rfl

theorem applyAll_append (c : Chart t) (as bs : List Addition) :
    c.applyAll (as ++ bs) = (c.applyAll as).applyAll bs :=
  List.foldl_append

@[simp]
theorem size_sets_applyAll (c : Chart t) (as : List Addition) :
    (c.applyAll as).sets.size = c.sets.size := by
  induction as generalizing c with
  | nil => rfl
  | cons a as ih => rw [applyAll_cons, ih, apply, size_sets_add]

theorem item?_applyAll_of_some {ref : ItemRef} {it : Item} (as : List Addition)
    (h : c.item? ref = some it) : (c.applyAll as).item? ref = some it := by
  induction as generalizing c with
  | nil => exact h
  | cons a as ih => exact ih (item?_add_of_some _ _ _ h)

theorem Has.applyAll {a : Addition} (h : c.Has a) (as : List Addition) :
    (c.applyAll as).Has a := by
  induction as generalizing c with
  | nil => exact h
  | cons b as ih => exact ih (Holds.add h _ _ _)

theorem has_of_mem {a : Addition} {as : List Addition} (ha : a ∈ as)
    (hlt : a.place < c.sets.size) : (c.applyAll as).Has a := by
  induction as generalizing c with
  | nil => cases ha
  | cons b as ih =>
    rcases List.mem_cons.mp ha with rfl | ha
    · exact Has.applyAll (holds_add_self hlt _ _) as
    · exact ih ha (by rwa [apply, size_sets_add])

/-- An addition to other sets changes nothing in a set. -/
theorem setAt_applyAll {k : Nat} {as : List Addition} (h : ∀ a ∈ as, a.place ≠ k) :
    (c.applyAll as).setAt k = c.setAt k := by
  induction as generalizing c with
  | nil => rfl
  | cons a as ih =>
    rw [List.forall_mem_cons] at h
    rw [applyAll_cons, ih h.2, apply, setAt_add_of_ne c (Ne.symm h.1)]

/-- The sources after additions are those before them and some of the added
    ones, in the order in which they were added. -/
theorem exists_sources_applyAll (c : Chart t) (as : List Addition) (ref : ItemRef) :
    ∃ new, (c.applyAll as).sources ref = c.sources ref ++ new ∧
      List.Sublist new (as.filterMap (·.source)) := by
  induction as generalizing c with
  | nil => exact ⟨[], by simp, List.nil_sublist _⟩
  | cons a as ih =>
    obtain ⟨new, hnew, hsub⟩ := ih (c.apply a)
    rw [applyAll_cons, hnew]
    -- The first addition is among the new ones only if it went to this address.
    rcases c.sources_add_cases a.place a.item a.source ref with h | ⟨s, hs, -, -, h⟩
    · refine ⟨new, by rw [apply, h], hsub.trans ?_⟩
      rw [List.filterMap_cons]
      split
      · exact List.Sublist.refl _
      · exact List.sublist_cons_self _ _
    · refine ⟨s :: new, by rw [apply, h]; simp, ?_⟩
      rw [List.filterMap_cons_some hs]
      exact hsub.cons_cons s

/-! ### Additions that items call for -/

/-- The additions that a chart calls for, with the addresses of the items that
    do so. Start symbols are predicted without any. -/
inductive Calls (c : Chart t) (starts : List SymbolId) (l : Lattice) :
    List ItemRef → Addition → Prop where
  | start {s : SymbolId} {id : RuleId} (hs : s ∈ starts) (hid : id ∈ t.rulesFor s) :
      Calls c starts l [] ⟨0, ⟨id, 0, 0⟩, none⟩
  | predicted {ref : ItemRef} {it : Item} {s : SymbolId} {id : RuleId}
      (hit : c.item? ref = some it) (hs : t.next? it = some s) (hid : id ∈ t.rulesFor s) :
      Calls c starts l [ref] ⟨ref.set, ⟨id, 0, ref.set⟩, none⟩
  | completed {source trigger : ItemRef} {it child : Item} {s : SymbolId}
      (hit : c.item? source = some it) (hchild : c.item? trigger = some child)
      (hs : t.next? it = some s) (hlhs : t.lhs? child.rule = some s)
      (hnext : t.next? child = none) (horigin : child.origin = source.set) :
      Calls c starts l [source, trigger]
        ⟨trigger.set, it.advanced, some (.completed source trigger)⟩
  | scanned {source : ItemRef} {it : Item} {s : SymbolId} {j : Nat}
      (hit : c.item? source = some it) (hs : t.next? it = some s)
      (hterm : t.hasRules s = false) (hj : l.token source.set s j) :
      Calls c starts l [source]
        ⟨j, it.advanced, some (.scanned source (l.start source.set))⟩

theorem Calls.of_items {c' : Chart t} {refs : List ItemRef} {a : Addition}
    (h : c.Calls starts l refs a)
    (hitems : ∀ ref ∈ refs, ∀ it, c.item? ref = some it → c'.item? ref = some it) :
    c'.Calls starts l refs a := by
  cases h with
  | start hs hid => exact .start hs hid
  | predicted hit hs hid => exact .predicted (hitems _ (by simp) _ hit) hs hid
  | completed hit hchild hs hlhs hnext horigin =>
    exact .completed (hitems _ (by simp) _ hit) (hitems _ (by simp) _ hchild) hs hlhs hnext
      horigin
  | scanned hit hs hterm hj => exact .scanned (hitems _ (by simp) _ hit) hs hterm hj

theorem Calls.applyAll {refs : List ItemRef} {a : Addition} (h : c.Calls starts l refs a)
    (as : List Addition) : (c.applyAll as).Calls starts l refs a :=
  h.of_items fun _ _ _ hit => item?_applyAll_of_some as hit

/-- The items behind a source that moved over a completed one. -/
theorem Calls.of_completed {refs : List ItemRef} {k : Nat} {it : Item}
    {source trigger : ItemRef}
    (h : c.Calls starts l refs ⟨k, it, some (.completed source trigger)⟩) :
    refs = [source, trigger] ∧ trigger.set = k ∧
      ∃ w child s, c.item? source = some w ∧ c.item? trigger = some child ∧
        t.next? w = some s ∧ t.lhs? child.rule = some s ∧ t.next? child = none ∧
        child.origin = source.set ∧ it = w.advanced := by
  generalize ha : Addition.mk _ _ _ = a at h
  cases h with
  | start | predicted | scanned => simp at ha
  | completed hit hchild hs hlhs hnext horigin =>
    simp only [Addition.mk.injEq, Option.some.injEq, Source.completed.injEq] at ha
    obtain ⟨rfl, rfl, rfl, rfl⟩ := ha
    exact ⟨rfl, rfl, _, _, _, hit, hchild, hs, hlhs, hnext, horigin, rfl⟩

/-- The item behind a source that moved over a token. -/
theorem Calls.of_scanned {refs : List ItemRef} {k : Nat} {it : Item} {source : ItemRef}
    {start : Nat} (h : c.Calls starts l refs ⟨k, it, some (.scanned source start)⟩) :
    refs = [source] ∧ start = l.start source.set ∧
      ∃ w s, c.item? source = some w ∧ t.next? w = some s ∧ t.hasRules s = false ∧
        l.token source.set s k ∧ it = w.advanced := by
  generalize ha : Addition.mk _ _ _ = a at h
  cases h with
  | start | predicted | completed => simp at ha
  | scanned hit hs hterm hj =>
    simp only [Addition.mk.injEq, Option.some.injEq, Source.scanned.injEq] at ha
    obtain ⟨rfl, rfl, rfl, rfl⟩ := ha
    exact ⟨rfl, rfl, _, _, hit, hs, hterm, hj, rfl⟩

/-- What is added with a source has its dot behind a symbol. -/
theorem Calls.dot_eq_zero_iff {refs : List ItemRef} {a : Addition}
    (h : c.Calls starts l refs a) : a.item.dot = 0 ↔ a.source = none := by
  cases h <;> simp [Item.advanced]

/-- Additions each of which is called for after those before it were made. -/
inductive CallsInTurn (starts : List SymbolId) (l : Lattice) :
    Chart t → List Addition → Prop where
  | nil (c : Chart t) : CallsInTurn starts l c []
  | cons {c : Chart t} {refs : List ItemRef} {a : Addition} {as : List Addition}
      (ha : c.Calls starts l refs a) (has : CallsInTurn starts l (c.apply a) as) :
      CallsInTurn starts l c (a :: as)

/-- A chart goes on calling for what it has called for, so that the additions it
    calls for may be made in any order. -/
theorem CallsInTurn.of_forall {as : List Addition}
    (has : ∀ a ∈ as, ∃ refs, c.Calls starts l refs a) : CallsInTurn starts l c as := by
  induction as generalizing c with
  | nil => exact .nil c
  | cons a as ih =>
    rw [List.forall_mem_cons] at has
    obtain ⟨⟨refs, ha⟩, has⟩ := has
    refine .cons ha (ih fun b hb => ?_)
    obtain ⟨refs, hb⟩ := has b hb
    exact ⟨refs, hb.applyAll [a]⟩

theorem CallsInTurn.append {as bs : List Addition} (has : CallsInTurn starts l c as)
    (hbs : CallsInTurn starts l (c.applyAll as) bs) : CallsInTurn starts l c (as ++ bs) := by
  induction has with
  | nil c => exact hbs
  | cons ha _ ih => exact .cons ha (ih hbs)

theorem CallsInTurn.take {as : List Addition} (has : CallsInTurn starts l c as) (n : Nat) :
    CallsInTurn starts l c (as.take n) := by
  induction has generalizing n with
  | nil c =>
    rw [List.take_nil]
    exact .nil c
  | cons ha _ ih =>
    cases n with
    | zero => exact .nil _
    | succ n => exact .cons ha (ih n)

/-- A chart that was built by additions that it called for when they were
    made. -/
inductive Arises (starts : List SymbolId) (l : Lattice) : Chart t → Prop where
  | ofSize (count : Nat) : Arises starts l (.ofSize count)
  | grow {c : Chart t} (hc : Arises starts l c) : Arises starts l c.grow
  | apply {c : Chart t} {refs : List ItemRef} {a : Addition} (hc : Arises starts l c)
      (ha : c.Calls starts l refs a) : Arises starts l (c.apply a)

theorem Arises.applyAll {as : List Addition} (hc : c.Arises starts l)
    (has : CallsInTurn starts l c as) : (c.applyAll as).Arises starts l := by
  induction has with
  | nil => exact hc
  | cons ha _ ih => exact ih (hc.apply ha)

@[simp]
theorem setAt_ofSize (count k : Nat) : (ofSize count : Chart t).setAt k = .empty := by
  simp only [ofSize, ofSets, setAt, Array.getD_eq_getD_getElem?, Array.getElem?_replicate]
  split <;> rfl

@[simp]
theorem setAt_grow (c : Chart t) (k : Nat) : c.grow.setAt k = c.setAt k := by
  simp only [grow, setAt, Array.getD_eq_getD_getElem?, Array.getElem?_push]
  split
  · next h =>
    subst h
    rw [Array.getElem?_eq_none (Nat.le_refl _)]
    rfl
  · rfl

@[simp]
theorem item?_ofSize (count : Nat) (ref : ItemRef) :
    (ofSize count : Chart t).item? ref = none := by
  rw [item?, setAt_ofSize]
  rfl

@[simp]
theorem item?_grow (c : Chart t) (ref : ItemRef) : c.grow.item? ref = c.item? ref := by
  rw [item?, setAt_grow]
  rfl

@[simp]
theorem sources_grow (c : Chart t) (ref : ItemRef) : c.grow.sources ref = c.sources ref := by
  rw [sources, setAt_grow]
  rfl

end Chart

end Scannerless
