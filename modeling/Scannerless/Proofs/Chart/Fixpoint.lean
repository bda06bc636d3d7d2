import Mathlib.Order.Bounds.Basic
import Scannerless.Proofs.Chart.Bounds
import Scannerless.Proofs.Chart.Inclusion
import Scannerless.Proofs.Chart.Limit
import Scannerless.Proofs.Grammar.Nullable

/-!
# Closing a set as a least fixpoint

The items of a set that is closed are the least that have those it began with and all that these
call for. A set may be closed in any chart whose items fit into their sets. What comes of it, items
and sources, does not depend on the order in which the set was filled.

## Main definitions

- `Chart.ClosedUnder` — items of a set have all that they call for among them.
- `Chart.SourcesWithin`, `Chart.AlikeAt` — a set with the same items and sources in two charts.

## Main statements

- `Chart.WellFormed.has_close` — what a closed set calls for is there.
- `Chart.ClosedUnder.itemsAt_close_subset` — closing a set adds what it calls for only.
- `Chart.isLeast_close` — closing a set makes the least of all closed sets, in whatever order it
  was filled.
-/

namespace Scannerless

namespace Chart

variable {t : RuleTable} {c c' : Chart t} {k : Nat} {S : Set Item} {as bs : List Addition}
  {refs : List ItemRef} {a : Addition} {it : Item} {src : Source}

def itemsAt (c : Chart t) (k : Nat) : Set Item :=
  {it | it ∈ (c.setAt k).items}

theorem mem_itemsAt_iff : it ∈ c.itemsAt k ↔ ∃ i, c.item? ⟨k, i⟩ = some it :=
  c.mem_items_iff k it

theorem mem_itemsAt_of_item? {ref : ItemRef} (h : c.item? ref = some it) :
    it ∈ c.itemsAt ref.set :=
  mem_itemsAt_iff.mpr ⟨ref.index, h⟩

/-- Items for set `k` have among them what they call for: the rules of a symbol behind a dot, and
    every item that a complete one moves. What a complete item moves is in the set in which it
    begins, an earlier one of the chart or set `k` itself. -/
structure ClosedUnder (c : Chart t) (k : Nat) (S : Set Item) : Prop where
  predicted : ∀ it ∈ S, ∀ s id, t.next? it = some s → t.lhs? id = some s → ⟨id, 0, k⟩ ∈ S
  completed : ∀ child ∈ S, ∀ s, t.isComplete child = true → t.lhs? child.rule = some s →
    child.origin < k → ∀ it ∈ c.itemsAt child.origin, t.next? it = some s → it.advanced ∈ S
  nulled : ∀ child ∈ S, ∀ s, t.isComplete child = true → t.lhs? child.rule = some s →
    child.origin = k → ∀ it ∈ S, t.next? it = some s → it.advanced ∈ S

/-- All sources in set `k` of a chart are in another one, those that were given as they are and the
    others with the same items. -/
def SourcesWithin (given : Item → Source → Prop) (k : Nat) (c c' : Chart t) : Prop :=
  ∀ it src, c.Holds k it (some src) →
    given it src ∧ c'.Holds k it (some src) ∨
      ∃ src', c.SameSource c' src src' ∧ c'.Holds k it (some src')

/-- Set `k` has the same items in two charts, with the same sources. -/
structure AlikeAt (given : Item → Source → Prop) (k : Nat) (c c' : Chart t) : Prop where
  items : c.itemsAt k = c'.itemsAt k
  sources : c.SourcesWithin given k c'
  sources_symm : c'.SourcesWithin given k c

theorem WellFormed.predict (hc : c.WellFormed) (hi : t.Indexed) (k : Nat) (s : SymbolId) :
    (c.predict k s).WellFormed := by
  rw [predict_eq]
  refine hc.applyAll fun a ha => ?_
  obtain ⟨id, hid, rfl⟩ := List.mem_map.mp ha
  exact hi.fits hid k

/-! ### What is called for in a set -/

/-- What is called for without start symbols and tokens is called for by an item of the set that it
    is for. -/
theorem Calls.exists_mem_place (ha : c.Calls [] .bare refs a) :
    ∃ ref ∈ refs, ref.set = a.place := by
  cases ha with
  | start hs => cases hs
  | predicted => exact ⟨_, List.mem_singleton_self _, rfl⟩
  | completed => exact ⟨_, List.mem_cons_of_mem _ (List.mem_singleton_self _), rfl⟩
  | scanned _ _ _ hj => exact hj.elim

/-- No item calls for additions to an earlier set. -/
theorem Calls.set_le (ha : c.Calls [] .bare refs a) (hc : c.WellFormed) :
    ∀ ref ∈ refs, ref.set ≤ a.place := by
  cases ha with
  | start hs => cases hs
  | predicted => simp
  | completed _ hchild _ _ _ horigin =>
    have hle := (hc _ _ hchild).origin_le
    rw [horigin] at hle
    simpa using hle
  | scanned _ _ _ hj => exact hj.elim

/-- What a closed set calls for is there. -/
theorem WellFormed.has_close (hc : c.WellFormed) (hi : t.Indexed)
    (ha : (c.close k).Calls [] .bare refs a) (hplace : a.place = k) : (c.close k).Has a := by
  -- In the run through the set it holds of what the items done so far call for.
  obtain ⟨j, hsize, hdone⟩ := (hc.noted k).run hi
    (P := fun i w => ∀ refs a, w.chart.Calls [] .bare refs a → a.place = k →
      (∀ ref ∈ refs, ref.Before k i) → w.chart.Has a)
    (fun refs a ha hplace hrefs => by
      obtain ⟨ref, href, hset⟩ := ha.exists_mem_place
      rcases hrefs ref href with h | h
      · exact absurd (hset.trans hplace) (ne_of_lt h)
      · exact absurd h.2 (Nat.not_lt_zero _))
    (fun i w hw hold hlt refs a ha hplace hrefs =>
      hw.has_step (l := .bare) hi (fun _ _ h => h) hlt ha hrefs fun ha => hold refs a ha hplace)
    (Nat.le_refl (t.dotted * (k + 1)))
  refine hdone refs a ha hplace fun ref href => ?_
  obtain ⟨it, hit⟩ := ha.exists_item? href
  exact before_of_item? hit (hplace ▸ ha.set_le (hc.close hi k) ref href) hsize

theorem Holds.mem_itemsAt {src : Option Source} (h : c.Holds k it src) : it ∈ c.itemsAt k := by
  obtain ⟨i, hit, -⟩ := h
  exact mem_itemsAt_iff.mpr ⟨i, hit⟩

/-- A set that was closed is closed. -/
theorem WellFormed.closedUnder_close (hc : c.WellFormed) (hi : t.Indexed) (k : Nat) :
    (c.close k).ClosedUnder k ((c.close k).itemsAt k) where
  predicted it hmem s id hs hid := by
    obtain ⟨i, hit⟩ := mem_itemsAt_iff.mp hmem
    exact (hc.has_close hi (.predicted hit hs ((hi s id).mpr hid)) rfl).mem_itemsAt
  completed child hmem s hcomplete hlhs _ it hmem' hs := by
    obtain ⟨i, hchild⟩ := mem_itemsAt_iff.mp hmem
    obtain ⟨m, hit⟩ := mem_itemsAt_iff.mp hmem'
    have hnext := RuleTable.isComplete_iff.mp hcomplete
    exact (hc.has_close hi (.completed hit hchild hs hlhs hnext rfl) rfl).mem_itemsAt
  nulled child hmem s hcomplete hlhs horigin it hmem' hs := by
    obtain ⟨i, hchild⟩ := mem_itemsAt_iff.mp hmem
    obtain ⟨m, hit⟩ := mem_itemsAt_iff.mp hmem'
    have hnext := RuleTable.isComplete_iff.mp hcomplete
    exact (hc.has_close hi (.completed hit hchild hs hlhs hnext horigin) rfl).mem_itemsAt

/-! ### Closed sets have what is called for -/

/-- Of a chart only the earlier sets matter. -/
theorem ClosedUnder.congr (hS : c.ClosedUnder k S) (h : ∀ m < k, c'.setAt m = c.setAt m) :
    c'.ClosedUnder k S where
  predicted := hS.predicted
  completed child hmem s hcomplete hlhs hlt it hit := by
    rw [itemsAt, h _ hlt] at hit
    exact hS.completed child hmem s hcomplete hlhs hlt it hit
  nulled := hS.nulled

theorem ClosedUnder.mem_of_calls (hS : c.ClosedUnder k S) (hi : t.Indexed) (hc : c.WellFormed)
    (hitems : c.itemsAt k ⊆ S) (ha : c.Calls [] .bare refs a) (hplace : a.place = k) :
    a.item ∈ S := by
  cases ha with
  | start hs => cases hs
  | scanned _ _ _ hj => exact hj.elim
  | predicted hit hs hid =>
    subst hplace
    exact hS.predicted _ (hitems (mem_itemsAt_of_item? hit)) _ _ hs ((hi _ _).mp hid)
  | completed hit hchild hs hlhs hnext horigin =>
    subst hplace
    have hmem := hitems (mem_itemsAt_of_item? hchild)
    have hsource := mem_itemsAt_of_item? hit
    rw [← horigin] at hsource
    have hcomplete := RuleTable.isComplete_iff.mpr hnext
    rcases Nat.lt_or_eq_of_le (hc _ _ hchild).origin_le with hlt | heq
    · exact hS.completed _ hmem _ hcomplete hlhs hlt _ hsource hs
    · rw [heq] at hsource
      exact hS.nulled _ hmem _ hcomplete hlhs heq _ (hitems hsource) hs

/-- Additions to set `k` that are called for in turn add nothing to a closed set. -/
theorem ClosedUnder.itemsAt_subset (hi : t.Indexed) (hS : c.ClosedUnder k S) (hc : c.WellFormed)
    (hitems : c.itemsAt k ⊆ S) (has : CallsInTurn [] .bare c as) (hplace : ∀ a ∈ as, a.place = k) :
    (c.applyAll as).itemsAt k ⊆ S := by
  induction has with
  | nil => exact hitems
  | @cons c refs a as ha _ ih =>
    rw [List.forall_mem_cons] at hplace
    refine ih ?_ (hc.apply (ha.fits hi Lattice.forward_bare hc)) ?_ hplace.2
    · exact hS.congr fun m hm => setAt_add_of_ne c (hplace.1 ▸ ne_of_lt hm) _ _
    · intro it hmem
      obtain ⟨i, hit⟩ := mem_itemsAt_iff.mp hmem
      rcases item?_add_cases hit with hold | ⟨-, rfl⟩
      · exact hitems (mem_itemsAt_iff.mpr ⟨i, hold⟩)
      · exact hS.mem_of_calls hi hc hitems ha hplace.1

theorem ClosedUnder.itemsAt_close_subset (hS : c.ClosedUnder k S) (hi : t.Indexed)
    (hc : c.WellFormed) (hitems : c.itemsAt k ⊆ S) : (c.close k).itemsAt k ⊆ S := by
  rw [close_eq]
  exact hS.itemsAt_subset hi hc hitems (hc.callsInTurn hi [] .bare k) fun a ha =>
    (closes_of_mem_closeAdditions ha).place

theorem setAt_close_of_ne (c : Chart t) {m : Nat} (h : m ≠ k) :
    (c.close k).setAt m = c.setAt m := by
  rw [close_eq]
  exact setAt_applyAll fun a ha => by
    rw [(closes_of_mem_closeAdditions ha).place]
    exact h.symm

/-! ### A set that is filled -/

/-- The items of a set that is filled are those that it had and those that were added. -/
theorem mem_itemsAt_applyAll (hk : k < c.sets.size) (hplace : ∀ a ∈ as, a.place = k) :
    it ∈ (c.applyAll as).itemsAt k ↔ it ∈ c.itemsAt k ∨ ∃ a ∈ as, a.item = it := by
  induction as generalizing c with
  | nil => simp
  | cons a as ih =>
    rw [List.forall_mem_cons] at hplace
    have hlt : a.place < c.sets.size := hplace.1 ▸ hk
    have happly : it ∈ (c.apply a).itemsAt k ↔ it ∈ c.itemsAt k ∨ a.item = it := by
      have h : ((c.apply a).setAt k).has it = true ↔
          (c.setAt k).has it = true ∨ a.place = k ∧ a.item = it := has_apply_iff hlt
      rw [has_eq_true_iff, has_eq_true_iff] at h
      simpa only [itemsAt, Set.mem_ofPred_eq, hplace.1, true_and] using h
    rw [applyAll_cons, ih (by rwa [apply, size_sets_add]) hplace.2, happly, or_assoc,
      List.exists_mem_cons_iff]

/-- A source that was there before has an item that was there before. -/
theorem holds_of_mem_sources {ref : ItemRef} (hsrc : src ∈ c.sources ref)
    (hit : c'.item? ref = some it)
    (hkept : ∀ v, c.item? ref = some v → c'.item? ref = some v) :
    c.Holds ref.set it (some src) := by
  obtain ⟨v, hv⟩ := exists_item?_of_mem_sources hsrc
  obtain rfl := Option.some_inj.mp ((hkept v hv).symm.trans hit)
  refine ⟨ref.index, hv, fun s hs => ?_⟩
  exact Option.some_inj.mp hs ▸ hsrc

theorem holds_apply_iff (h : a.place < c.sets.size) :
    (c.apply a).Holds k it (some src) ↔ c.Holds k it (some src) ∨ a = ⟨k, it, some src⟩ := by
  constructor
  · rintro ⟨i, hit, hsrc⟩
    rcases mem_sources_add (hsrc src rfl) with hold | ⟨hs, hset, hit'⟩
    · exact Or.inl (holds_of_mem_sources hold hit fun v => item?_add_of_some _ _ _)
    · obtain rfl := Option.some_inj.mp (hit'.symm.trans hit)
      exact Or.inr (by rw [← hs, show k = a.place from hset])
  · rintro (hold | rfl)
    · exact hold.add _ _ _
    · exact holds_add_self h _ _

/-- The sources of items that were filled in are those that they had and those that were added. -/
theorem holds_applyAll_iff (h : ∀ a ∈ as, a.place < c.sets.size) :
    (c.applyAll as).Holds k it (some src) ↔ c.Holds k it (some src) ∨ ⟨k, it, some src⟩ ∈ as := by
  induction as generalizing c with
  | nil => simp
  | cons a as ih =>
    rw [List.forall_mem_cons] at h
    rw [applyAll_cons, ih (by simpa only [apply, size_sets_add] using h.2), holds_apply_iff h.1,
      or_assoc, List.mem_cons, eq_comm (a := a)]

/-- The sources in a closed set are those that it had and those that it calls for. -/
theorem WellFormed.holds_close_iff (hc : c.WellFormed) (hi : t.Indexed) :
    (c.close k).Holds k it (some src) ↔
      c.Holds k it (some src) ∨ ∃ refs, (c.close k).Calls [] .bare refs ⟨k, it, some src⟩ := by
  constructor
  · rintro ⟨i, hit, hsrc⟩
    have hmem := hsrc src rfl
    rw [close_eq] at hit hmem ⊢
    rcases (hc.callsInTurn hi [] .bare k).calls_of_mem_sources hit hmem with hold | hcalls
    · exact Or.inl (holds_of_mem_sources hold hit fun v => item?_applyAll_of_some _)
    · exact Or.inr hcalls
  · rintro (hold | ⟨refs, hcalls⟩)
    · have hthere : c.Has ⟨k, it, some src⟩ := hold
      rw [close_eq]
      exact hthere.applyAll _
    · have hthere := hc.has_close hi hcalls rfl
      exact hthere

/-! ### The least closed set -/

/-- The sources of a set before it is closed: those of the chart and of what was added. -/
def Given (c : Chart t) (k : Nat) (as : List Addition) (it : Item) (src : Source) : Prop :=
  c.Holds k it (some src) ∨ ⟨k, it, some src⟩ ∈ as

section

variable (hc : c.WellFormed) (hi : t.Indexed) (hk : k < c.sets.size)
  (has : ∀ a ∈ as, a.place = k ∧ t.Fits k a.item)

include hc has

theorem WellFormed.fill : (c.applyAll as).WellFormed :=
  hc.applyAll fun a ha => (has a ha).1 ▸ (has a ha).2

omit hc in
/-- Filling and closing a set changes no other one. -/
theorem setAt_close_fill {m : Nat} (hm : m ≠ k) :
    ((c.applyAll as).close k).setAt m = c.setAt m := by
  rw [setAt_close_of_ne _ hm]
  exact setAt_applyAll fun a ha => (has a ha).1 ▸ hm.symm

include hi hk

/-- The items of a set that was filled and closed are the least closed ones. -/
theorem WellFormed.isLeast_itemsAt :
    IsLeast {S | c.itemsAt k ⊆ S ∧ (∀ a ∈ as, a.item ∈ S) ∧ c.ClosedUnder k S}
      (((c.applyAll as).close k).itemsAt k) := by
  have hfilled : (c.applyAll as).WellFormed := hc.fill has
  have hplace : ∀ a ∈ as, a.place = k := fun a ha => (has a ha).1
  have hgrows : (c.applyAll as).itemsAt k ⊆ ((c.applyAll as).close k).itemsAt k := by
    intro it hmem
    obtain ⟨i, hit⟩ := mem_itemsAt_iff.mp hmem
    rw [close_eq]
    exact mem_itemsAt_iff.mpr ⟨i, item?_applyAll_of_some _ hit⟩
  refine ⟨⟨fun it hmem => hgrows ?_, fun a ha => hgrows ?_, ?_⟩, ?_⟩
  · exact (mem_itemsAt_applyAll hk hplace).mpr (Or.inl hmem)
  · exact (mem_itemsAt_applyAll hk hplace).mpr (Or.inr ⟨a, ha, rfl⟩)
  · exact (hfilled.closedUnder_close hi k).congr fun m hm =>
      (setAt_close_fill has (ne_of_lt hm)).symm
  · rintro S ⟨hitems, hadded, hS⟩
    have hS' : (c.applyAll as).ClosedUnder k S := hS.congr fun m hm =>
      setAt_applyAll fun a ha => hplace a ha ▸ (ne_of_lt hm).symm
    refine hS'.itemsAt_close_subset hi hfilled fun it hmem => ?_
    rcases (mem_itemsAt_applyAll hk hplace).mp hmem with hold | ⟨a, ha, rfl⟩
    · exact hitems hold
    · exact hadded a ha

/-- The sources in a set that was filled and closed are those it was filled with and those that
    it calls for. -/
theorem WellFormed.holds_close_fill_iff :
    ((c.applyAll as).close k).Holds k it (some src) ↔
      c.Given k as it src ∨
        ∃ refs, ((c.applyAll as).close k).Calls [] .bare refs ⟨k, it, some src⟩ := by
  rw [(hc.fill has).holds_close_iff hi, holds_applyAll_iff fun a ha => (has a ha).1 ▸ hk, Given]

/-- In whatever order a set is filled, what it calls for when it is closed is the same. -/
theorem WellFormed.sourcesWithin_of_perm (hperm : as.Perm bs) :
    ((c.applyAll as).close k).SourcesWithin (c.Given k as) k ((c.applyAll bs).close k) := by
  have hbs : ∀ a ∈ bs, a.place = k ∧ t.Fits k a.item := fun a ha => has a (hperm.mem_iff.mpr ha)
  have hitems : ((c.applyAll as).close k).itemsAt k = ((c.applyAll bs).close k).itemsAt k := by
    refine (hc.isLeast_itemsAt hi hk has).unique ?_
    simpa only [hperm.mem_iff] using hc.isLeast_itemsAt hi hk hbs
  intro it src hsrc
  rcases (hc.holds_close_fill_iff hi hk has).mp hsrc with h | ⟨refs, hcalls⟩
  · refine Or.inl ⟨h, (hc.holds_close_fill_iff hi hk hbs).mpr (Or.inl ?_)⟩
    exact h.imp_right hperm.mem_iff.mp
  · -- What was called for is called for by the same items.
    obtain ⟨refs', _, hcalls', hsource⟩ :=
      hcalls.transfer (fun _ _ _ h => ⟨h, rfl⟩) fun ref it hit => by
        by_cases hset : ref.set = k
        · have hmem := mem_itemsAt_of_item? hit
          rw [hset, hitems] at hmem
          obtain ⟨i, hit'⟩ := mem_itemsAt_iff.mp hmem
          exact ⟨⟨k, i⟩, hset.symm, it, hit, hit'⟩
        · refine ⟨ref, rfl, it, hit, ?_⟩
          rwa [item?, setAt_close_fill hbs hset, ← setAt_close_fill has hset]
    obtain ⟨src', rfl, hsame⟩ := hsource src rfl
    have hthere := (hc.fill hbs).has_close hi hcalls' rfl
    exact Or.inr ⟨src', hsame, hthere⟩

end

/-- **The least closed set.** Closing a set of a chart comes to an end, is never refused without a
    limit, and changes no other set. The items of the set are the least that have those it was
    filled with and all that they call for. Its sources are those it was filled with and one for
    each way in which a complete item moves another one. Neither depends on the order in which the
    set was filled. -/
theorem isLeast_close {rules : Array Rule} {n : Nat} (hlt : ∀ r ∈ rules.toList, r.lhs < n)
    {c : Chart (.ofRules rules n)} (hc : c.WellFormed) (hk : k < c.sets.size)
    (has : ∀ a ∈ as, a.place = k ∧ (RuleTable.ofRules rules n).Fits k a.item) :
    (∃ w, Ends (Closing.advance k) (0, ⟨c.applyAll as, []⟩) w ∧
        (c.applyAll as).closeWithin none k = .ok w.chart ∧ w.chart = (c.applyAll as).close k) ∧
      (∀ m, m ≠ k → ((c.applyAll as).close k).setAt m = c.setAt m) ∧
      IsLeast {S | c.itemsAt k ⊆ S ∧ (∀ a ∈ as, a.item ∈ S) ∧ c.ClosedUnder k S}
        (((c.applyAll as).close k).itemsAt k) ∧
      (∀ it src, ((c.applyAll as).close k).Holds k it (some src) ↔
        c.Given k as it src ∨
          ∃ refs, ((c.applyAll as).close k).Calls [] .bare refs ⟨k, it, some src⟩) ∧
      ∀ bs, as.Perm bs →
        AlikeAt (c.Given k as) k ((c.applyAll as).close k) ((c.applyAll bs).close k) := by
  have hi : (RuleTable.ofRules rules n).Indexed := RuleTable.indexed_ofRules hlt
  have hleast := hc.isLeast_itemsAt hi hk has
  refine ⟨?_, fun m hm => setAt_close_fill has hm, hleast, ?_, ?_⟩
  · obtain ⟨w, hends, hw⟩ := (hc.fill has).ends_close hi k
    exact ⟨w, hends, by rw [closeWithin_none, hw], hw⟩
  · exact fun it src => hc.holds_close_fill_iff hi hk has
  · intro bs hperm
    have hbs : ∀ a ∈ bs, a.place = k ∧ (RuleTable.ofRules rules n).Fits k a.item :=
      fun a ha => has a (hperm.mem_iff.mpr ha)
    have hgiven : c.Given k bs = c.Given k as := by
      funext it src
      rw [Given, Given, hperm.mem_iff]
    refine ⟨hleast.unique ?_, hc.sourcesWithin_of_perm hi hk has hperm, ?_⟩
    · simpa only [hperm.mem_iff] using hc.isLeast_itemsAt hi hk hbs
    · rw [← hgiven]
      exact hc.sourcesWithin_of_perm hi hk hbs hperm.symm

/-- The rules `s = s n n | x` and an empty `n`. -/
def tailRules : Array Rule :=
  #[⟨0, [0, 1, 1], "s", .apply none, [true, true, true], 0⟩,
    ⟨0, [2], "s", .apply none, [true], 0⟩,
    ⟨1, [], "n", .apply none, [], 0⟩]

/-- The start symbol of `tailRules` is predicted in front of one token. -/
def tailStart : Chart (.ofRules tailRules 3) :=
  ((ofSize 2).predict 0 0).close 0

/-- The token `x` moved an item, and the rule of the empty symbol was predicted. -/
def tailAdditions : List Addition :=
  [⟨1, ⟨1, 1, 0⟩, some (.scanned ⟨0, 1⟩ 0)⟩, ⟨1, ⟨2, 0, 1⟩, none⟩]

/-- Behind the token the two empty symbols are passed, whether the empty rule is done before the
    items that wait for it or after the first of them. -/
theorem isLeast_close_tail :
    IsLeast {S | tailStart.itemsAt 1 ⊆ S ∧ (∀ a ∈ tailAdditions, a.item ∈ S) ∧
        tailStart.ClosedUnder 1 S}
      (((tailStart.applyAll tailAdditions).close 1).itemsAt 1) ∧
    AlikeAt (tailStart.Given 1 tailAdditions) 1 ((tailStart.applyAll tailAdditions).close 1)
      ((tailStart.applyAll tailAdditions.reverse).close 1) ∧
    (((tailStart.applyAll tailAdditions).close 1).setAt 1).items =
      [⟨1, 1, 0⟩, ⟨2, 0, 1⟩, ⟨0, 1, 0⟩, ⟨0, 2, 0⟩, ⟨0, 3, 0⟩] ∧
    (((tailStart.applyAll tailAdditions.reverse).close 1).setAt 1).items =
      [⟨2, 0, 1⟩, ⟨1, 1, 0⟩, ⟨0, 1, 0⟩, ⟨0, 2, 0⟩, ⟨0, 3, 0⟩] := by
  have hlt : ∀ r ∈ tailRules.toList, r.lhs < 3 := by decide
  have hi : (RuleTable.ofRules tailRules 3).Indexed := RuleTable.indexed_ofRules hlt
  have hstart : tailStart.WellFormed := ((wellFormed_ofSize 2).predict hi 0 0).close hi 0
  have hadditions : ∀ a ∈ tailAdditions,
      a.place = 1 ∧ (RuleTable.ofRules tailRules 3).Fits 1 a.item := by
    rw [tailAdditions, List.forall_mem_cons, List.forall_mem_singleton]
    exact ⟨⟨rfl, ⟨0, by decide⟩, by decide, by decide⟩, rfl, ⟨1, by decide⟩, by decide, by decide⟩
  obtain ⟨-, -, hleast, -, hperm⟩ := isLeast_close hlt hstart (by decide) hadditions
  exact ⟨hleast, hperm _ (List.reverse_perm _).symm, by decide, by decide⟩

end Chart

end Scannerless
