import Scannerless.Proofs.Chart.Additions

/-!
# What a chart that arises is like

Every item of a chart that arises belongs where it is: its rule is one of the table,
its dot lies in the right side, it does not begin behind its set, and what is matched
of it spans the places from its origin to its set. An item that is not predicted has a
source, and all its sources are ones that the chart calls for.

## Main definitions

- `RuleTable.Fits`, `RuleTable.Admits` — an item may stand in a set.
- `Chart.WellFormed` — all items of a chart fit into their sets.
- `Chart.Reading` — the trees that are read off an item through sources.

## Main statements

- `Chart.Arises.admits`, `Chart.Arises.calls_of_mem_sources`, `Chart.Arises.spans`.
- `Chart.Reading.reads` — trees read through sources are trees of the rules.
-/

namespace Scannerless

/-- An item fits into set `k`: it has a rule, its dot is in the right side, and it begins
    in this set or an earlier one. -/
structure RuleTable.Fits (t : RuleTable) (k : Nat) (it : Item) : Prop where
  lhs : ∃ s, t.lhs? it.rule = some s
  dot_le : it.dot ≤ (t.rhs it.rule).length
  origin_le : it.origin ≤ k

/-- An item may stand in set `k`: it fits there, and it begins there if nothing is
    matched. -/
structure RuleTable.Admits (t : RuleTable) (k : Nat) (it : Item) : Prop extends t.Fits k it where
  origin_eq : it.dot = 0 → it.origin = k

namespace RuleTable

variable {t : RuleTable} {it : Item} {s : SymbolId}

theorem dot_lt_of_next? (h : t.next? it = some s) : it.dot < (t.rhs it.rule).length :=
  (List.getElem?_eq_some_iff.mp h).1

/-- The matched part of an item that moved over a symbol ends in the symbol. -/
theorem take_advanced (h : t.next? it = some s) :
    (t.rhs it.advanced.rule).take it.advanced.dot = (t.rhs it.rule).take it.dot ++ [s] := by
  obtain ⟨hlt, hs⟩ := List.getElem?_eq_some_iff.mp h
  rw [Item.advanced, List.take_add_one, List.getElem?_eq_getElem hlt, hs]
  rfl

theorem next?_eq_none_iff : t.next? it = none ↔ (t.rhs it.rule).length ≤ it.dot :=
  List.getElem?_eq_none_iff

/-- All of the right side of a complete item is matched. -/
theorem take_of_next?_eq_none (h : t.next? it = none) :
    (t.rhs it.rule).take it.dot = t.rhs it.rule :=
  List.take_of_length_le (next?_eq_none_iff.mp h)

theorem isComplete_iff : t.isComplete it = true ↔ t.next? it = none := by
  rw [isComplete, decide_eq_true_iff, next?_eq_none_iff]

theorem Fits.advanced {j k : Nat} (h : t.Fits k it) (hs : t.next? it = some s)
    (hj : k ≤ j) : t.Fits j it.advanced where
  lhs := h.lhs
  dot_le := dot_lt_of_next? hs
  origin_le := h.origin_le.trans hj

theorem Indexed.fits (hi : t.Indexed) {id : RuleId} (hid : id ∈ t.rulesFor s) (k : Nat) :
    t.Fits k ⟨id, 0, k⟩ where
  lhs := ⟨s, (hi s id).mp hid⟩
  dot_le := Nat.zero_le _
  origin_le := Nat.le_refl k

end RuleTable

namespace Chart

variable {t : RuleTable} {c : Chart t} {starts : List SymbolId} {l : Lattice}

/-- All items of a chart fit into their sets. -/
def WellFormed (c : Chart t) : Prop :=
  ∀ ref it, c.item? ref = some it → t.Fits ref.set it

theorem WellFormed.apply (hc : c.WellFormed) {a : Addition} (ha : t.Fits a.place a.item) :
    (c.apply a).WellFormed := by
  intro ref it h
  rcases item?_add_cases h with h | ⟨hset, rfl⟩
  · exact hc ref it h
  · exact hset ▸ ha

theorem WellFormed.applyAll (hc : c.WellFormed) {as : List Addition}
    (has : ∀ a ∈ as, t.Fits a.place a.item) : (c.applyAll as).WellFormed := by
  induction as generalizing c with
  | nil => exact hc
  | cons a as ih =>
    rw [List.forall_mem_cons] at has
    exact ih (hc.apply has.1) has.2

/-- A well-formed chart calls for items that fit where they are to go. -/
theorem Calls.fits {refs : List ItemRef} {a : Addition} (hi : t.Indexed) (hl : l.Forward)
    (h : c.Calls starts l refs a) (hc : c.WellFormed) : t.Fits a.place a.item := by
  cases h with
  | start hs hid => exact hi.fits hid 0
  | predicted hit hs hid => exact hi.fits hid _
  | completed hit hchild hs hlhs hnext horigin =>
    exact (hc _ _ hit).advanced hs (horigin ▸ (hc _ _ hchild).origin_le)
  | scanned hit hs hterm hj => exact (hc _ _ hit).advanced hs (hl hj).le

/-- What is called for with nothing matched begins where it is to go. -/
theorem Calls.origin_eq {refs : List ItemRef} {a : Addition} (h : c.Calls starts l refs a)
    (hdot : a.item.dot = 0) : a.item.origin = a.place := by
  cases h with
  | start | predicted => rfl
  | completed | scanned => exact absurd hdot (Nat.succ_ne_zero _)

theorem wellFormed_ofSize (count : Nat) : (ofSize count : Chart t).WellFormed := by
  intro ref it h
  simp at h

theorem Arises.wellFormed (hi : t.Indexed) (hl : l.Forward) (hc : c.Arises starts l) :
    c.WellFormed := by
  induction hc with
  | ofSize count => exact wellFormed_ofSize count
  | grow _ ih => exact fun ref it h => ih ref it (by simpa using h)
  | apply _ ha ih => exact ih.apply (ha.fits hi hl ih)

/-- Every item of a chart that arises may stand where it is. -/
theorem Arises.admits (hi : t.Indexed) (hl : l.Forward) (hc : c.Arises starts l)
    {ref : ItemRef} {it : Item} (h : c.item? ref = some it) : t.Admits ref.set it := by
  refine ⟨hc.wellFormed hi hl ref it h, ?_⟩
  induction hc generalizing ref it with
  | ofSize count => simp at h
  | grow _ ih => exact ih (by simpa using h)
  | apply _ ha ih =>
    rcases item?_add_cases h with h | ⟨hset, rfl⟩
    · exact ih h
    · exact fun hdot => hset ▸ ha.origin_eq hdot

/-- A source that comes with additions called for is one that the chart calls for. -/
theorem CallsInTurn.calls_of_mem_sources {as : List Addition} (has : CallsInTurn starts l c as)
    {ref : ItemRef} {it : Item} {src : Source} (h : (c.applyAll as).item? ref = some it)
    (hsrc : src ∈ (c.applyAll as).sources ref) :
    src ∈ c.sources ref ∨ ∃ refs, (c.applyAll as).Calls starts l refs ⟨ref.set, it, some src⟩ := by
  induction has with
  | nil c => exact Or.inl hsrc
  | @cons c refs a as ha _ ih =>
    rcases ih h hsrc with hmem | hcalls
    · rcases mem_sources_add hmem with hmem | ⟨hs, hset, hit⟩
      · exact Or.inl hmem
      · obtain rfl := Option.some_inj.mp ((item?_applyAll_of_some as hit).symm.trans h)
        refine Or.inr ⟨refs, ?_⟩
        rw [hset, ← hs]
        exact ha.applyAll (a :: as)
    · exact Or.inr hcalls

/-- Every source of a chart that arises is one that the chart calls for. -/
theorem Arises.calls_of_mem_sources (hc : c.Arises starts l) {ref : ItemRef} {it : Item}
    {src : Source} (h : c.item? ref = some it) (hsrc : src ∈ c.sources ref) :
    ∃ refs, c.Calls starts l refs ⟨ref.set, it, some src⟩ := by
  induction hc generalizing ref it src with
  | ofSize count => simp at h
  | grow _ ih =>
    obtain ⟨refs, hcalls⟩ := ih (by simpa using h) (by simpa using hsrc)
    exact ⟨refs, hcalls.of_items fun ref _ it hit => by simpa using hit⟩
  | @apply c refs a _ ha ih =>
    rcases (CallsInTurn.cons ha (.nil _)).calls_of_mem_sources h hsrc with hmem | hcalls
    · -- A source that was there before has an item that was there before.
      obtain ⟨it', hit'⟩ := exists_item?_of_mem_sources hmem
      obtain rfl : it' = it :=
        Option.some_inj.mp ((item?_add_of_some _ _ _ hit').symm.trans h)
      obtain ⟨refs, hcalls⟩ := ih hit' hmem
      exact ⟨refs, hcalls.applyAll [a]⟩
    · exact hcalls

/-- A new item has the source that it was added with. -/
theorem Arises.sources_ne_nil (hc : c.Arises starts l) {ref : ItemRef} {it : Item}
    (h : c.item? ref = some it) (hdot : it.dot ≠ 0) : c.sources ref ≠ [] := by
  induction hc generalizing ref it with
  | ofSize count => simp at h
  | grow _ ih =>
    rw [sources_grow]
    exact ih (by simpa using h) hdot
  | @apply c refs a _ ha ih =>
    rcases item?_add_cases h with hold | ⟨hset, rfl⟩
    · have hprefix := c.sources_prefix_add a.place a.item a.source ref
      exact List.IsPrefix.ne_nil hprefix (ih hold hdot)
    · -- Only predictions come without a source, and they have their dot in front.
      obtain ⟨s, hs⟩ : ∃ s, a.source = some s := by
        cases ha with
        | start => exact absurd rfl hdot
        | predicted => exact absurd rfl hdot
        | completed => exact ⟨_, rfl⟩
        | scanned => exact ⟨_, rfl⟩
      have hlt : a.place < c.sets.size := by
        rw [← hset, ← size_sets_add c a.place a.item a.source]
        exact set_lt_of_item? h
      obtain ⟨i, hi, hmem⟩ := holds_add_self hlt a.item a.source
      obtain rfl := address_unique h hi hset
      exact List.ne_nil_of_mem (hmem s hs)

theorem Arises.sources_eq_nil (hc : c.Arises starts l) {ref : ItemRef} {it : Item}
    (h : c.item? ref = some it) (hdot : it.dot = 0) : c.sources ref = [] := by
  refine List.eq_nil_iff_forall_not_mem.mpr fun src hsrc => ?_
  obtain ⟨refs, hcalls⟩ := hc.calls_of_mem_sources h hsrc
  cases hcalls.dot_eq_zero_iff.mp hdot

/-- What is matched of an item spans the places from its origin to its set. -/
theorem Arises.spans (hi : t.Indexed) (hc : c.Arises starts l)
    {ref : ItemRef} {it : Item} (h : c.item? ref = some it) :
    t.Spans l ((t.rhs it.rule).take it.dot) it.origin ref.set := by
  induction hc generalizing ref it with
  | ofSize count => simp at h
  | grow _ ih => exact ih (by simpa using h)
  | @apply c refs a hc ha ih =>
    rcases item?_add_cases h with h | ⟨hset, rfl⟩
    · exact ih h
    rw [hset]
    cases ha with
    | start hs hid => simp
    | predicted hit hs hid => simp
    | completed hit hchild hs hlhs hnext horigin =>
      have hspan := ih hchild
      rw [RuleTable.take_of_next?_eq_none hnext, horigin] at hspan
      rw [RuleTable.take_advanced hs]
      exact RuleTable.spans_concat_iff.mpr
        ⟨_, ih hit, Or.inr ⟨_, (hi _ _).mpr hlhs, hspan⟩⟩
    | scanned hit hs hterm hj =>
      rw [RuleTable.take_advanced hs]
      exact RuleTable.spans_concat_iff.mpr ⟨_, ih hit, Or.inl ⟨hterm, hj⟩⟩

/-! ### Trees read through sources -/

/-- The trees of the matched part of an item that are read through sources, one
    for each symbol. -/
inductive Reading (c : Chart t) : ItemRef → List Tree → Prop where
  | predicted {ref : ItemRef} {it : Item} (hit : c.item? ref = some it) (hdot : it.dot = 0) :
      Reading c ref []
  | completed {ref source trigger : ItemRef} {child : Item} {ts us : List Tree}
      (hsrc : .completed source trigger ∈ c.sources ref)
      (hchild : c.item? trigger = some child) (hts : Reading c source ts)
      (hus : Reading c trigger us) :
      Reading c ref (ts ++ [.node child.rule child.origin trigger.set us])
  | scanned {ref source : ItemRef} {start : Nat} {it : Item} {s : SymbolId} {ts : List Tree}
      (hsrc : .scanned source start ∈ c.sources ref) (hit : c.item? source = some it)
      (hs : t.next? it = some s) (hts : Reading c source ts) :
      Reading c ref (ts ++ [.token s source.set start ref.set])

/-- Trees read through sources are trees of the rules. -/
theorem Reading.reads (hi : t.Indexed) (hl : l.Forward) (hc : c.Arises starts l)
    {ref : ItemRef} {it : Item} {ts : List Tree} (h : c.Reading ref ts)
    (href : c.item? ref = some it) :
    t.Reads l ((t.rhs it.rule).take it.dot) it.origin ref.set ts := by
  induction h generalizing it with
  | @predicted ref w hit hdot =>
    obtain rfl : w = it := Option.some_inj.mp (hit.symm.trans href)
    rw [hdot, List.take_zero, (hc.admits hi hl hit).origin_eq hdot]
    exact .nil _
  | completed hsrc hchild _ _ ihts ihus =>
    -- The source was called for, so that the item that completes fits behind the dot.
    obtain ⟨refs, hcalls⟩ := hc.calls_of_mem_sources href hsrc
    obtain ⟨-, hset, w, child', s, hit, hchild', hs, hlhs, hnext, horigin, rfl⟩ :=
      hcalls.of_completed
    obtain rfl := Option.some_inj.mp (hchild'.symm.trans hchild)
    have hus := ihus hchild
    rw [RuleTable.take_of_next?_eq_none hnext] at hus
    rw [RuleTable.take_advanced hs, ← hset]
    exact .node (horigin ▸ ihts hit) ((hi _ _).mpr hlhs) hus
  | scanned hsrc hit hs _ ihts =>
    obtain ⟨refs, hcalls⟩ := hc.calls_of_mem_sources href hsrc
    obtain ⟨-, rfl, w, s', hit', hs', hterm, hj, rfl⟩ := hcalls.of_scanned
    obtain rfl := Option.some_inj.mp (hit'.symm.trans hit)
    obtain rfl := Option.some_inj.mp (hs'.symm.trans hs)
    rw [RuleTable.take_advanced hs]
    exact .token (ihts hit) hterm hj

end Chart

end Scannerless
