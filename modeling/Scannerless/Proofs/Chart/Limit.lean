import Scannerless.Proofs.Chart.Stages
import Scannerless.Proofs.Outcomes

/-!
# Charts within a limit

Steps within a limit do what the steps without one do, addition by addition, until one is
refused. The additions that bring items are told from those that bring sources only. The one that
is refused is the first that brings an item when there are as many items as allowed.

## Main definitions

- `Chart.created` — those of some additions that bring an item that is not there.

## Main statements

- `Chart.closeWithin_eq`, `Chart.foldlM_scanWithin` — the steps are additions within a limit.
- `Chart.numItems_applyAll` — there are as many items as additions that brought one.
- `Chart.acceptAll_eq_ok_of_le`, `Chart.acceptAll_eq_error` — what comes of additions within a
  limit.
-/

namespace Scannerless

namespace Chart

variable {t : RuleTable} {c c' : Chart t} {limit : Option Nat} {k : Nat} {as : List Addition}

/-! ### Additions within a limit -/

theorem accept_none (c : Chart t) (a : Addition) : c.accept none a = .ok (c.apply a) :=
  rfl

theorem eq_apply_of_accept {a : Addition} (h : c.accept limit a = .ok c') : c' = c.apply a := by
  cases limit with
  | none => exact (Except.ok.inj h).symm
  | some n =>
    rw [accept] at h
    split at h
    · exact (Except.ok.inj h).symm
    · cases h

theorem acceptAll_cons (c : Chart t) (a : Addition) (as : List Addition) :
    c.acceptAll limit (a :: as) = (c.accept limit a >>= fun c => c.acceptAll limit as) :=
  List.foldlM_cons

theorem acceptAll_append (c : Chart t) (as bs : List Addition) :
    c.acceptAll limit (as ++ bs) = (c.acceptAll limit as >>= fun c => c.acceptAll limit bs) :=
  List.foldlM_append

theorem eq_applyAll_of_acceptAll (h : c.acceptAll limit as = .ok c') : c' = c.applyAll as := by
  induction as generalizing c with
  | nil => exact (Except.ok.inj h).symm
  | cons a as ih =>
    rw [acceptAll_cons, bind_eq_ok_iff] at h
    obtain ⟨d, hd, hrest⟩ := h
    obtain rfl := eq_apply_of_accept hd
    exact ih hrest

/-- Without a limit nothing is refused. -/
theorem acceptAll_none (c : Chart t) (as : List Addition) :
    c.acceptAll none as = .ok (c.applyAll as) := by
  induction as generalizing c with
  | nil => rfl
  | cons a as ih =>
    rw [acceptAll_cons, accept_none]
    exact ih (c.apply a)

/-- Of two lists of additions the second one is made of what comes of the first one. -/
theorem acceptAll_append_eq (c : Chart t) (as bs : List Addition) :
    c.acceptAll limit (as ++ bs) =
      (c.acceptAll limit as >>= fun _ => (c.applyAll as).acceptAll limit bs) := by
  rw [acceptAll_append]
  cases h : c.acceptAll limit as with
  | error e => rfl
  | ok d =>
    rw [eq_applyAll_of_acceptAll h]
    rfl

/-! ### Additions that bring items -/

theorem has_eq_true_iff {set : StateSet t} {it : Item} : set.has it = true ↔ it ∈ set.items := by
  have hnone : set.roster.index? it = none ↔ it ∉ set.items :=
    set.roster.index?_eq_none_iff it
  rw [StateSet.has, Option.isSome_iff_ne_none, Ne, hnone, Decidable.not_not]

theorem size_add (set : StateSet t) (it : Item) (src : Option Source) :
    (set.add it src).size = if set.has it then set.size else set.size + 1 := by
  rw [← StateSet.length_items, StateSet.items_add, ← set.length_items]
  by_cases hmem : it ∈ set.items
  · rw [if_pos hmem, if_pos (has_eq_true_iff.mpr hmem)]
  · rw [if_neg hmem, if_neg (has_eq_true_iff.not.mpr hmem), List.length_append]
    rfl

/-- An addition brings one item or none. -/
theorem numItems_apply {a : Addition} (h : a.place < c.sets.size) :
    (c.apply a).numItems =
      if (c.setAt a.place).has a.item then c.numItems else c.numItems + 1 := by
  have hnum : (c.apply a).numItems =
      c.numItems + ((c.apply a).setAt a.place).size - (c.setAt a.place).size := rfl
  rw [hnum, apply, setAt_add_self h, size_add]
  split <;> omega

/-- What an addition brings is its item, and what was there stays there. -/
theorem has_apply_iff {a : Addition} (h : a.place < c.sets.size) {it : Item} :
    ((c.apply a).setAt k).has it = true ↔
      (c.setAt k).has it = true ∨ a.place = k ∧ a.item = it := by
  rw [has_eq_true_iff, has_eq_true_iff, apply]
  by_cases hk : a.place = k
  · subst hk
    rw [setAt_add_self h, StateSet.items_add]
    split
    next hmem =>
      refine ⟨Or.inl, fun hor => hor.elim id ?_⟩
      rintro ⟨-, rfl⟩
      exact hmem
    next => simp [eq_comm]
  · rw [setAt_add_of_ne c (Ne.symm hk)]
    simp [hk]

theorem numItems_apply_of_has {a : Addition} (h : (c.setAt a.place).has a.item = true) :
    (c.apply a).numItems = c.numItems := by
  have hlt : a.place < c.sets.size := by
    refine Nat.lt_of_not_le fun hle => ?_
    rw [setAt_eq_empty hle, has_eq_true_iff] at h
    cases h
  rw [numItems_apply hlt, if_pos h]

/-- A source for an item that is there is never refused. -/
theorem accept_of_has {a : Addition} (h : (c.setAt a.place).has a.item = true) :
    c.accept limit a = .ok (c.apply a) := by
  cases limit with
  | none => rfl
  | some n => rw [accept, h, Bool.true_or, if_pos rfl]

/-- Those of some additions that bring an item that is not there when they are made. -/
def created : Chart t → List Addition → List Addition
  | _, [] => []
  | c, a :: as =>
    if (c.setAt a.place).has a.item then created (c.apply a) as
    else a :: created (c.apply a) as

/-- There are as many items as additions that brought one. -/
theorem numItems_applyAll (h : ∀ a ∈ as, a.place < c.sets.size) :
    (c.applyAll as).numItems = c.numItems + (c.created as).length := by
  induction as generalizing c with
  | nil => rfl
  | cons a as ih =>
    rw [List.forall_mem_cons] at h
    rw [applyAll_cons, ih (by simpa only [apply, size_sets_add] using h.2),
      numItems_apply h.1, created]
    split
    · rfl
    · rw [List.length_cons]
      omega

/-- The items behind some additions are those before them and those that were brought. -/
theorem has_applyAll_iff (h : ∀ a ∈ as, a.place < c.sets.size) {it : Item} :
    ((c.applyAll as).setAt k).has it = true ↔
      (c.setAt k).has it = true ∨ (k, it) ∈ (c.created as).map fun a => (a.place, a.item) := by
  induction as generalizing c with
  | nil => simp [created]
  | cons a as ih =>
    rw [List.forall_mem_cons] at h
    rw [applyAll_cons, ih (by simpa only [apply, size_sets_add] using h.2),
      has_apply_iff h.1, created]
    split
    next hthere =>
      have hsame : a.place = k ∧ a.item = it → (c.setAt k).has it = true := by
        rintro ⟨rfl, rfl⟩
        exact hthere
      tauto
    next =>
      have hpair : (k, it) = (a.place, a.item) ↔ a.place = k ∧ a.item = it := by
        rw [eq_comm, Prod.mk.injEq]
      rw [List.map_cons, List.mem_cons, hpair, or_assoc]

/-- No item is brought twice, and none that is there. -/
theorem nodup_created (h : ∀ a ∈ as, a.place < c.sets.size) :
    (∀ a ∈ c.created as, (c.setAt a.place).has a.item = false) ∧
      ((c.created as).map fun a => (a.place, a.item)).Nodup := by
  induction as generalizing c with
  | nil => simp [created]
  | cons a as ih =>
    rw [List.forall_mem_cons] at h
    obtain ⟨hnew, hnodup⟩ := ih (c := c.apply a) (by simpa only [apply, size_sets_add] using h.2)
    -- What is new behind the first addition is new before it and is not its item.
    have hbefore : ∀ b ∈ (c.apply a).created as, (c.setAt b.place).has b.item = false ∧
        ¬ (a.place = b.place ∧ a.item = b.item) := by
      intro b hb
      have hmiss := (has_apply_iff h.1).not.mp (Bool.eq_false_iff.mp (hnew b hb))
      rw [not_or, Bool.not_eq_true] at hmiss
      exact hmiss
    rw [created]
    split
    · exact ⟨fun b hb => (hbefore b hb).1, hnodup⟩
    next hthere =>
      refine ⟨List.forall_mem_cons.mpr ⟨Bool.eq_false_iff.mpr hthere, fun b hb =>
        (hbefore b hb).1⟩, ?_⟩
      rw [List.map_cons, List.nodup_cons]
      refine ⟨fun hmem => ?_, hnodup⟩
      obtain ⟨b, hb, hsame⟩ := List.mem_map.mp hmem
      rw [Prod.mk.injEq] at hsame
      exact (hbefore b hb).2 ⟨hsame.1.symm, hsame.2.symm⟩

theorem numItems_ofSize (t : RuleTable) (count : Nat) :
    (ofSize count : Chart t).numItems = 0 := by
  show countItems (Array.replicate count StateSet.empty) = 0
  rw [countItems, ← Array.foldl_toList, Array.toList_replicate]
  induction count with
  | zero => rfl
  | succ count ih => rwa [List.replicate_succ, List.foldl_cons]

/-! ### Outcomes of additions within a limit -/

theorem accept_of_lt {n : Nat} {a : Addition} (h : c.numItems < n) :
    c.accept (some n) a = .ok (c.apply a) := by
  rw [accept, if_pos (by simp [h])]

/-- Additions that bring no more items than allowed are all made. -/
theorem acceptAll_eq_ok_of_le {n : Nat} (h : ∀ a ∈ as, a.place < c.sets.size)
    (hle : c.numItems + (c.created as).length ≤ n) :
    c.acceptAll (some n) as = .ok (c.applyAll as) := by
  induction as generalizing c with
  | nil => rfl
  | cons a as ih =>
    rw [List.forall_mem_cons] at h
    have hrest : (c.apply a).numItems + ((c.apply a).created as).length ≤ n →
        (c.apply a).acceptAll (some n) as = .ok ((c.apply a).applyAll as) :=
      ih (by simpa only [apply, size_sets_add] using h.2)
    rw [numItems_apply h.1] at hrest
    rw [created] at hle
    rw [acceptAll_cons]
    split at hle
    next hthere =>
      rw [if_pos hthere] at hrest
      rw [accept_of_has hthere]
      exact hrest hle
    next hthere =>
      rw [List.length_cons] at hle
      rw [if_neg hthere] at hrest
      rw [accept_of_lt (by omega)]
      exact hrest (by omega)

/-- The first addition that brings an item too many is refused. -/
theorem acceptAll_eq_error {n : Nat} (h : ∀ a ∈ as, a.place < c.sets.size)
    (hle : c.numItems ≤ n) {a : Addition} (ha : (c.created as)[n - c.numItems]? = some a) :
    c.acceptAll (some n) as = .error ⟨n, a.place⟩ := by
  induction as generalizing c with
  | nil => cases ha
  | cons b as ih =>
    rw [List.forall_mem_cons] at h
    have hrest : (c.apply b).numItems ≤ n →
        ((c.apply b).created as)[n - (c.apply b).numItems]? = some a →
        (c.apply b).acceptAll (some n) as = .error ⟨n, a.place⟩ :=
      ih (by simpa only [apply, size_sets_add] using h.2)
    rw [numItems_apply h.1] at hrest
    rw [created] at ha
    rw [acceptAll_cons]
    split at ha
    next hthere =>
      rw [if_pos hthere] at hrest
      rw [accept_of_has hthere]
      exact hrest hle ha
    next hthere =>
      rw [if_neg hthere] at hrest
      rcases Nat.lt_or_eq_of_le hle with hlt | heq
      · obtain ⟨m, hm⟩ : ∃ m, n - c.numItems = m + 1 := ⟨n - c.numItems - 1, by omega⟩
        rw [hm, List.getElem?_cons_succ] at ha
        rw [accept_of_lt hlt]
        exact hrest hlt (by rwa [show n - (c.numItems + 1) = m by omega])
      · -- There are as many items as allowed, and this addition would bring one more.
        rw [heq, Nat.sub_self, List.getElem?_cons_zero, Option.some_inj] at ha
        subst ha
        rw [accept, if_neg (by simp [hthere, heq])]
        rfl

/-- Within a limit there are never more items than allowed. -/
theorem numItems_le_of_acceptAll {n : Nat} (h : ∀ a ∈ as, a.place < c.sets.size)
    (hle : c.numItems ≤ n) (hc : c.acceptAll (some n) as = .ok c') : c'.numItems ≤ n := by
  rw [eq_applyAll_of_acceptAll hc, numItems_applyAll h]
  refine Nat.le_of_not_lt fun hlt => ?_
  have hin : n - c.numItems < (c.created as).length := by omega
  rw [acceptAll_eq_error h hle (List.getElem?_eq_getElem hin)] at hc
  cases hc

/-! ### Closing a set -/

namespace Closing

variable {i : Nat}

theorem nulledWith_eq (k i : Nat) (w : Closing t) : w.nulledWith k i = (w.step k i).nulled := by
  have hitem : (w.chart.setAt k).item? i = w.chart.item? ⟨k, i⟩ := rfl
  rw [nulledWith, step, hitem]
  cases w.chart.item? ⟨k, i⟩ with
  | none => rfl
  | some it =>
    cases hs : t.next? it with
    | some s =>
      cases hlhs : t.lhs? it.rule <;> by_cases hrules : t.hasRules s <;>
        simp [hs, hrules, predict]
    | none =>
      cases hlhs : t.lhs? it.rule with
      | none => simp [hs, hlhs]
      | some s => simp [hs, hlhs, complete]

theorem stepWithin_eq (k i : Nat) (w : Closing t) :
    w.stepWithin limit k i =
      (w.chart.acceptAll limit (w.additions k i)).map fun _ => w.step k i := by
  rw [stepWithin]
  cases h : w.chart.acceptAll limit (w.additions k i) with
  | error e => rfl
  | ok c =>
    have hchart : c = (w.step k i).chart := by
      rw [eq_applyAll_of_acceptAll h, chart_step]
    rw [hchart, nulledWith_eq]
    rfl

theorem runWithin_eq (k steps i : Nat) (w : Closing t) :
    (runWithin limit k steps i w).map (·.chart) =
      w.chart.acceptAll limit (Closing.runAdditions k steps i w) := by
  induction steps generalizing i w with
  | zero => rfl
  | succ steps ih =>
    rw [runWithin, Closing.runAdditions]
    split
    · rw [acceptAll_append_eq, stepWithin_eq]
      cases h : w.chart.acceptAll limit (w.additions k i) with
      | error e => rfl
      | ok c =>
        rw [← chart_step]
        exact ih (i + 1) (w.step k i)
    · rfl

end Closing

/-- To close a set within a limit is to make the additions of closing it. -/
theorem closeWithin_eq (c : Chart t) (k : Nat) :
    c.closeWithin limit k = c.acceptAll limit (c.closeAdditions k) :=
  Closing.runWithin_eq k _ 0 ⟨c, []⟩

/-- Without a limit a set is closed. -/
theorem closeWithin_none (c : Chart t) (k : Nat) : c.closeWithin none k = .ok (c.close k) := by
  rw [closeWithin_eq, acceptAll_none, ← close_eq]

theorem eq_close_of_closeWithin (h : c.closeWithin limit k = .ok c') : c' = c.close k := by
  rw [closeWithin_eq] at h
  rw [eq_applyAll_of_acceptAll h, close_eq]

/-! ### Reading tokens -/

theorem eq_scanAll_of_foldlM {start : Nat} {found : List (SymbolId × Nat)}
    (h : found.foldlM (fun c f => c.scanWithin limit k f.1 start f.2) c = .ok c') :
    c' = c.scanAll k start found := by
  induction found generalizing c with
  | nil => exact (Except.ok.inj h).symm
  | cons f found ih =>
    rw [List.foldlM_cons, bind_eq_ok_iff] at h
    obtain ⟨d, hd, hrest⟩ := h
    obtain rfl : d = c.scan k f.1 start f.2 := by
      rw [eq_applyAll_of_acceptAll hd, scan_eq]
    exact ih hrest

/-- Without a limit no token is refused. -/
theorem foldlM_scanWithin_none (c : Chart t) (k start : Nat) (found : List (SymbolId × Nat)) :
    found.foldlM (fun c f => c.scanWithin none k f.1 start f.2) c =
      .ok (c.scanAll k start found) := by
  induction found generalizing c with
  | nil => rfl
  | cons f found ih =>
    rw [List.foldlM_cons, scanWithin, acceptAll_none, ← scan_eq]
    exact ih (c.scan k f.1 start f.2)

/-- To read tokens that lead into other sets within a limit is to make the additions of
    reading them. -/
theorem foldlM_scanWithin {start : Nat} {found : List (SymbolId × Nat)}
    (h : ∀ f ∈ found, f.2 ≠ k) :
    found.foldlM (fun c f => c.scanWithin limit k f.1 start f.2) c =
      c.acceptAll limit (c.scanAdditions k start found) := by
  induction found generalizing c with
  | nil => rfl
  | cons f found ih =>
    rw [List.forall_mem_cons] at h
    have hscan : c.scanWithin limit k f.1 start f.2 =
        c.acceptAll limit (c.scanAdditions k start [f]) := rfl
    rw [List.foldlM_cons, scanAdditions_cons, acceptAll_append_eq, hscan]
    cases hd : c.acceptAll limit (c.scanAdditions k start [f]) with
    | error e => rfl
    | ok d =>
      obtain rfl := eq_applyAll_of_acceptAll hd
      have hrest := ih (c := c.applyAll (c.scanAdditions k start [f])) h.2
      rw [scanAdditions_applyAll h.1] at hrest
      exact hrest

end Chart

end Scannerless
