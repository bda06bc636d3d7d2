import Scannerless.Evaluation
import Scannerless.Proofs.Recognition.Forest

/-!
# The chosen reading

Of the sources of an item one is chosen, and the trees that are read through chosen
sources make one reading of the item. There is such a reading of every complete item:
no item lies below itself, as a child that spans all of its rule stands between symbols
that are empty, and symbols do not consist of themselves alone.

## Main definitions

- `Recognition.chosen?` — the chosen source of an item.
- `Recognition.Follows` — the trees that are read through chosen sources.
- `Recognition.Chosen` — the chosen tree of an input.

## Main statements

- `mostPreferred_eq_some` — the first of those that no other one comes before.
- `Recognition.Ended.exists_follows` — every complete item has a chosen reading.
- `Recognition.Follows.unique` — and only one.
-/

namespace Scannerless

/-! ### Preferences -/

namespace Preference

variable {a b c : Preference}

theorem before_iff :
    a.before b = true ↔
      a.1 < b.1 ∨ a.1 = b.1 ∧ (a.2.1 < b.2.1 ∨ a.2.1 = b.2.1 ∧ a.2.2 < b.2.2) := by
  simp [before]

theorem before_trans (hab : a.before b = true) (hbc : b.before c = true) :
    a.before c = true := by
  rw [before_iff] at *
  omega

theorem before_of_not_before (hab : a.before b = true) (hcb : ¬c.before b = true) :
    a.before c = true := by
  rw [before_iff] at *
  omega

end Preference

section

variable {α : Type} {preference : α → Preference} {xs : List α} {x z : α}

theorem mostPreferred_concat :
    mostPreferred preference (xs ++ [z]) =
      match mostPreferred preference xs with
      | none => some z
      | some best => some (if (preference z).before (preference best) then z else best) := by
  cases xs with
  | nil => rfl
  | cons x xs => simp only [mostPreferred, List.cons_append, List.foldl_append,
      List.foldl_cons, List.foldl_nil]

theorem mostPreferred_eq_none_iff : mostPreferred preference xs = none ↔ xs = [] := by
  cases xs <;> simp [mostPreferred]

/-- What is chosen comes before all elements in front of it, and none behind it comes
    before it. -/
theorem mostPreferred_eq_some (h : mostPreferred preference xs = some x) :
    ∃ front back, xs = front ++ x :: back ∧
      (∀ y ∈ front, (preference x).before (preference y) = true) ∧
      ∀ y ∈ back, ¬(preference y).before (preference x) = true := by
  induction xs using List.reverseRecOn generalizing x with
  | nil => cases h
  | append_singleton xs z ih =>
    rw [mostPreferred_concat] at h
    cases hbest : mostPreferred preference xs with
    | none =>
      rw [hbest] at h
      obtain rfl := Option.some_inj.mp h
      obtain rfl := mostPreferred_eq_none_iff.mp hbest
      exact ⟨[], [], rfl, by simp, by simp⟩
    | some best =>
      rw [hbest] at h
      obtain rfl := Option.some_inj.mp h
      obtain ⟨front, back, rfl, hfront, hback⟩ := ih hbest
      split
      next hz =>
        -- The last element comes before the best one so far, and with it before all others.
        refine ⟨front ++ best :: back, [], rfl, fun y hy => ?_, by simp⟩
        rcases List.mem_append.mp hy with hy | hy
        · exact Preference.before_trans hz (hfront y hy)
        · rcases List.mem_cons.mp hy with rfl | hy
          · exact hz
          · exact Preference.before_of_not_before hz (hback y hy)
      next hz =>
        refine ⟨front, back ++ [z], by simp, hfront, fun y hy => ?_⟩
        rcases List.mem_append.mp hy with hy | hy
        · exact hback y hy
        · rwa [List.mem_singleton.mp hy]

end

namespace Recognition

variable {r : Recognition} {ref : ItemRef} {it : Item} {src : Source} {ts : List Tree}

/-! ### Chosen sources -/

theorem entry?_of_item? (hit : r.run.chart.item? ref = some it) :
    r.entry? ref = some ⟨it, (r.run.chart.setAt ref.set).sourcesAt ref.index⟩ := by
  show r.run.chart.entry? ref = _
  rw [Chart.entry?_eq, hit]
  rfl

def chosen? (r : Recognition) (ref : ItemRef) : Option Source :=
  (r.entry? ref).bind r.choose

theorem chosen?_eq (hit : r.run.chart.item? ref = some it) :
    r.chosen? ref = mostPreferred r.sourcePreference (r.run.chart.sources ref) := by
  rw [chosen?, entry?_of_item? hit]
  rfl

theorem mem_of_chosen? (hit : r.run.chart.item? ref = some it)
    (h : r.chosen? ref = some src) : src ∈ r.run.chart.sources ref :=
  mem_of_mostPreferred (chosen?_eq hit ▸ h)

/-- An item that moved has a chosen source. -/
theorem Ended.exists_chosen? (hr : r.Ended) (hit : r.run.chart.item? ref = some it)
    (hdot : it.dot ≠ 0) : ∃ src, r.chosen? ref = some src := by
  refine Option.ne_none_iff_exists'.mp fun hnone => ?_
  rw [chosen?_eq hit, mostPreferred_eq_none_iff] at hnone
  exact hr.finished.arises.sources_ne_nil hit hdot hnone

/-- The trees of the matched part of an item that are read through chosen sources, one for
    each symbol. -/
inductive Follows (r : Recognition) : ItemRef → List Tree → Prop where
  | predicted {ref : ItemRef} {it : Item} (hit : r.run.chart.item? ref = some it)
      (hdot : it.dot = 0) : Follows r ref []
  | completed {ref source trigger : ItemRef} {it child : Item} {ts us : List Tree}
      (hit : r.run.chart.item? ref = some it)
      (hchosen : r.chosen? ref = some (.completed source trigger))
      (hchild : r.run.chart.item? trigger = some child) (hts : Follows r source ts)
      (hus : Follows r trigger us) :
      Follows r ref (ts ++ [.node child.rule child.origin trigger.set us])
  | scanned {ref source : ItemRef} {start : Nat} {it w : Item} {s : SymbolId}
      {ts : List Tree} (hit : r.run.chart.item? ref = some it)
      (hchosen : r.chosen? ref = some (.scanned source start))
      (hw : r.run.chart.item? source = some w) (hs : r.grammar.structural.next? w = some s)
      (hts : Follows r source ts) :
      Follows r ref (ts ++ [.token s source.set start ref.set])

/-- The tree of the chosen root that is read through chosen sources. -/
def Chosen (r : Recognition) (tree : Tree) : Prop :=
  ∃ root it us, r.chooseRoot = some root ∧ r.run.chart.item? root = some it ∧
    r.Follows root us ∧ tree = .node it.rule it.origin root.set us

/-- What is read through chosen sources is read through sources. -/
theorem Follows.reading (h : r.Follows ref ts) : r.run.chart.Reading ref ts := by
  induction h with
  | predicted hit hdot => exact .predicted hit hdot
  | completed hit hchosen hchild _ _ ihts ihus =>
    exact .completed (mem_of_chosen? hit hchosen) hchild ihts ihus
  | scanned hit hchosen hw hs _ ihts =>
    exact .scanned (mem_of_chosen? hit hchosen) hw hs ihts

/-! ### Every complete item has a chosen reading -/

/-- The chosen source of an item that moved is one of the ways to it. -/
theorem Ended.chosen?_cases (hr : r.Ended) (hit : r.run.chart.item? ref = some it.advanced)
    (h : r.chosen? ref = some src) :
    (∃ source trigger, src = .completed source trigger ∧
      r.MovesOverItem it ref.set source trigger) ∨
    ∃ source, src = .scanned source (r.skip source.set) ∧ r.MovesOverToken it ref.set source :=
  (hr.mem_sources_iff hit src).mp (mem_of_chosen? hit h)

theorem Ended.spans (hr : r.Ended) (hit : r.run.chart.item? ref = some it) :
    r.grammar.structural.Spans r.lattice ((r.grammar.structural.rhs it.rule).take it.dot)
      it.origin ref.set :=
  hr.finished.arises.spans hr.coherent.structural hit

/-- The complete items below a complete item: those over a shorter span, and those over the
    same span whose symbols the symbol of the item may consist of alone. -/
def Below (r : Recognition) (s : SymbolId) (span : Nat) (ref : ItemRef) (it : Item) : Prop :=
  ∃ x, r.grammar.structural.lhs? it.rule = some x ∧
    (ref.set - it.origin < span ∨
      ref.set - it.origin = span ∧ x ∈ Draft.aloneFrom r.grammar.structural s)

/-- What an item of a rule moved over lies below the complete items of the rule. -/
theorem Ended.below_of_next? (hr : r.Ended) {s : SymbolId} {stop : Nat} {trigger : ItemRef}
    {child : Item} (hit : r.run.chart.item? ref = some it)
    (hlhs : r.grammar.structural.lhs? it.rule = some s)
    (hchild : r.run.chart.item? trigger = some child)
    (hlhs' : r.grammar.structural.lhs? child.rule = r.grammar.structural.next? it)
    (horigin : child.origin = ref.set)
    (hrest : r.grammar.structural.Spans r.lattice
      ((r.grammar.structural.rhs it.rule).drop (it.dot + 1)) trigger.set stop) :
    r.Below s (stop - it.origin) trigger child := by
  have hi := hr.coherent.structural
  obtain ⟨x, hx⟩ := (hr.admits hchild).lhs
  have hfront := hr.spans hit
  have hle := hfront.le hr.forward
  have hle' := (hr.admits hchild).origin_le
  have hle'' := hrest.le hr.forward
  refine ⟨x, hx, ?_⟩
  by_cases hspan : trigger.set - child.origin < stop - it.origin
  · exact Or.inl hspan
  -- A child that spans all of the rule leaves no text to the other symbols.
  have horigin' : it.origin = ref.set := by omega
  have hstop : trigger.set = stop := by omega
  refine Or.inr ⟨by omega, ?_⟩
  rw [horigin'] at hfront
  rw [hstop] at hrest
  obtain ⟨hdot, hget⟩ := List.getElem?_eq_some_iff.mp (hlhs'.symm.trans hx)
  have hsplit : r.grammar.structural.rhs it.rule =
      (r.grammar.structural.rhs it.rule).take it.dot ++
        x :: (r.grammar.structural.rhs it.rule).drop (it.dot + 1) := by
    rw [← hget, List.getElem_cons_drop, List.take_append_drop]
  refine hr.coherent.mem_aloneFrom hlhs hsplit (hi.hasRules_of_lhs hx) fun y hy => ?_
  rcases List.mem_append.mp hy with hy | hy
  · exact hfront.derives_nil hi hr.forward y hy
  · exact hrest.derives_nil hi hr.forward y hy

theorem spans_drop_of_next? {s : SymbolId} {i j k : Nat}
    (hnext : r.grammar.structural.next? it = some s)
    (hs : r.grammar.structural.Spans r.lattice [s] i j)
    (hrest : r.grammar.structural.Spans r.lattice
      ((r.grammar.structural.rhs it.rule).drop (it.dot + 1)) j k) :
    r.grammar.structural.Spans r.lattice ((r.grammar.structural.rhs it.rule).drop it.dot) i k := by
  obtain ⟨hdot, hget⟩ := List.getElem?_eq_some_iff.mp hnext
  rw [← List.getElem_cons_drop hdot, hget]
  exact RuleTable.spans_cons_iff.mpr ⟨j, hs, hrest⟩

theorem Ended.spans_of_complete (hr : r.Ended) {s : SymbolId} {id : RuleId} {origin : Nat}
    (hid : r.grammar.structural.lhs? id = some s)
    (hit : r.run.chart.item? ref = some ⟨id, (r.grammar.structural.rhs id).length, origin⟩) :
    r.grammar.structural.Spans r.lattice [s] origin ref.set := by
  have hspans := hr.spans hit
  rw [List.take_length] at hspans
  exact RuleTable.spans_singleton_iff.mpr
    (Or.inr ⟨id, (hr.coherent.structural _ _).mpr hid, hspans⟩)

/-- An item of a rule is read through chosen sources if what lies below the complete items of
    the rule is. The induction is on the dot. -/
theorem Ended.exists_follows_of_below (hr : r.Ended) {s : SymbolId} {stop : Nat}
    (hit : r.run.chart.item? ref = some it)
    (hlhs : r.grammar.structural.lhs? it.rule = some s)
    (hrest : r.grammar.structural.Spans r.lattice
      ((r.grammar.structural.rhs it.rule).drop it.dot) ref.set stop)
    (hbelow : ∀ trigger child, r.run.chart.item? trigger = some child →
      r.grammar.structural.next? child = none → r.Below s (stop - it.origin) trigger child →
      ∃ us, r.Follows trigger us) :
    ∃ ts, r.Follows ref ts := by
  obtain ⟨id, dot, origin⟩ := it
  induction dot generalizing ref with
  | zero => exact ⟨[], .predicted hit rfl⟩
  | succ dot ih =>
    obtain ⟨src, hsrc⟩ := hr.exists_chosen? hit (Nat.succ_ne_zero dot)
    have hmoved : r.run.chart.item? ref = some (Item.advanced ⟨id, dot, origin⟩) := hit
    rcases hr.chosen?_cases hmoved hsrc with
      ⟨source, trigger, rfl, hsource, ⟨x, cid, hnext, -, hcid, htrigger⟩, hset⟩ |
      ⟨source, rfl, hsource, x, hnext, htoken⟩
    · have hstep := hr.spans_of_complete hcid htrigger
      rw [hset] at hstep
      obtain ⟨ts, hts⟩ := ih hsource hlhs (spans_drop_of_next? hnext hstep hrest) hbelow
      have hchild := hr.below_of_next? hsource hlhs htrigger (hcid.trans hnext.symm) rfl
        (hset ▸ hrest)
      obtain ⟨us, hus⟩ := hbelow trigger _ htrigger
        (RuleTable.next?_eq_none_iff.mpr (Nat.le_refl _)) hchild
      exact ⟨_, .completed hit hsrc htrigger hts hus⟩
    · have hstep : r.grammar.structural.Spans r.lattice [x] source.set ref.set :=
        RuleTable.spans_singleton_iff.mpr
          (Or.inl ⟨(hr.expected_of_token htoken).2, htoken⟩)
      obtain ⟨ts, hts⟩ := ih hsource hlhs (spans_drop_of_next? hnext hstep hrest) hbelow
      exact ⟨_, .scanned hit hsrc hsource hnext hts⟩

/-- Every complete item is read through chosen sources. The induction is on its span, and on
    the symbols that may consist of one another. -/
theorem Ended.exists_follows (hr : r.Ended) (hit : r.run.chart.item? ref = some it)
    (hcomplete : r.grammar.structural.next? it = none) : ∃ ts, r.Follows ref ts := by
  obtain ⟨s, hs⟩ := (hr.admits hit).lhs
  generalize hspan : ref.set - it.origin = span
  induction span using Nat.strongRecOn generalizing ref it s with
  | _ span ihspan =>
    induction hr.coherent.acyclic s generalizing ref it with
    | _ s _ ihsymbol =>
      -- Nothing is left of the rule, so that what it moved over lies below the item.
      have hrest : r.grammar.structural.Spans r.lattice
          ((r.grammar.structural.rhs it.rule).drop it.dot) ref.set ref.set := by
        rw [List.drop_eq_nil_of_le (RuleTable.next?_eq_none_iff.mp hcomplete)]
        exact RuleTable.spans_nil_iff.mpr rfl
      refine hr.exists_follows_of_below hit hs hrest fun trigger child hchild hnext hbelow => ?_
      obtain ⟨x, hx, hless | ⟨hsame, hmem⟩⟩ := hbelow
      · exact ihspan _ (hspan ▸ hless) hchild hnext x hx rfl
      · exact ihsymbol x hmem hchild hnext hx (hsame.trans hspan)

/-! ### There is one chosen reading -/

theorem Ended.chosen?_of_predicted (hr : r.Ended) (hit : r.run.chart.item? ref = some it)
    (hdot : it.dot = 0) : r.chosen? ref = none := by
  rw [chosen?_eq hit, mostPreferred_eq_none_iff]
  exact hr.finished.arises.sources_eq_nil hit hdot

/-- An item with a chosen source moved. -/
theorem Ended.exists_eq_advanced (hr : r.Ended) (hit : r.run.chart.item? ref = some it)
    (h : r.chosen? ref = some src) : ∃ w, it = Item.advanced w := by
  obtain ⟨id, dot, origin⟩ := it
  cases dot with
  | zero =>
    rw [hr.chosen?_of_predicted hit rfl] at h
    cases h
  | succ dot => exact ⟨⟨id, dot, origin⟩, rfl⟩

theorem Follows.unique {us : List Tree} (h : r.Follows ref ts) (hr : r.Ended)
    (h' : r.Follows ref us) : ts = us := by
  induction h generalizing us with
  | predicted hit hdot =>
    have hnone := hr.chosen?_of_predicted hit hdot
    cases h' with
    | predicted => rfl
    | completed _ hchosen => rw [hnone] at hchosen; cases hchosen
    | scanned _ hchosen => rw [hnone] at hchosen; cases hchosen
  | @completed ref source trigger it child ts us hit hchosen hchild _ _ ihts ihus =>
    cases h' with
    | predicted hit' hdot =>
      rw [hr.chosen?_of_predicted hit' hdot] at hchosen
      cases hchosen
    | completed _ hchosen' hchild' hts' hus' =>
      obtain ⟨rfl, rfl⟩ : source = _ ∧ trigger = _ := by
        simpa using hchosen.symm.trans hchosen'
      obtain rfl := Option.some_inj.mp (hchild.symm.trans hchild')
      rw [ihts hts', ihus hus']
    | scanned _ hchosen' =>
      cases hchosen.symm.trans hchosen'
  | @scanned ref source start it w s ts hit hchosen hw hs _ ihts =>
    cases h' with
    | predicted hit' hdot =>
      rw [hr.chosen?_of_predicted hit' hdot] at hchosen
      cases hchosen
    | completed _ hchosen' =>
      cases hchosen.symm.trans hchosen'
    | scanned _ hchosen' hw' hs' hts' =>
      obtain ⟨rfl, rfl⟩ : source = _ ∧ start = _ := by
        simpa using hchosen.symm.trans hchosen'
      obtain rfl := Option.some_inj.mp (hw.symm.trans hw')
      obtain rfl := Option.some_inj.mp (hs.symm.trans hs')
      rw [ihts hts']

theorem Ended.exists_chosen (hr : r.Ended) (hok : r.failure? = none) :
    ∃ tree, r.Chosen tree := by
  obtain ⟨root, hroot⟩ := failure?_eq_none_iff.mp hok
  obtain ⟨best, hbest⟩ : ∃ best, r.chooseRoot = some best := by
    refine Option.ne_none_iff_exists'.mp fun hnone => ?_
    rw [chooseRoot, mostPreferred_eq_none_iff] at hnone
    rw [hnone] at hroot
    cases hroot
  obtain ⟨-, id, -, hit⟩ := hr.mem_roots_iff.mp (mem_of_mostPreferred hbest)
  obtain ⟨us, hus⟩ :=
    hr.exists_follows hit (RuleTable.next?_eq_none_iff.mpr (Nat.le_refl _))
  exact ⟨_, best, _, us, hbest, hit, hus, rfl⟩

theorem Chosen.unique {tree other : Tree} (h : r.Chosen tree) (hr : r.Ended)
    (h' : r.Chosen other) : tree = other := by
  obtain ⟨root, it, us, hroot, hit, hus, rfl⟩ := h
  obtain ⟨root', it', us', hroot', hit', hus', rfl⟩ := h'
  obtain rfl := Option.some_inj.mp (hroot.symm.trans hroot')
  obtain rfl := Option.some_inj.mp (hit.symm.trans hit')
  rw [hus.unique hr hus']

end Recognition

end Scannerless
