import Scannerless.Proofs.Evaluation.Runs

/-!
# Evaluation comes to an end

A complete item is a child of another one if the rule of that one moved over it, on any way to
the item. A child has a shorter span, or it has the same one and a symbol that the symbol of its
parent may consist of alone. Grammars in which a symbol may consist of itself are refused, so that
no item lies below itself, and whatever goes from items to their children comes to an end.

## Main definitions

- `Recognition.MovedFrom` — a step to the left over a source of an item.
- `Recognition.ChildOf` — the children of a complete item over all of its sources.

## Main statements

- `Recognition.Ended.below_of_childOf` — a child lies below its parent.
- `Recognition.Ended.wellFounded_childOf` — going from parents to children ends.
- `Recognition.Ended.exists_expands` — the leaves of every complete item are found.
- `evaluation_ends` — the loops of an evaluation come to their ends.
-/

namespace Scannerless

namespace Recognition

variable {r : Recognition} {ref source child parent cursor : ItemRef} {it : Item} {src : Source}

/-- An item moved over a symbol, from the item at `source`. -/
def MovedFrom (r : Recognition) (ref source : ItemRef) : Prop :=
  ∃ src ∈ r.run.chart.sources ref, src.item = source

/-- A complete item has moved over a child: any way to the left from the item comes to one that
    has the child for the trigger of a source. -/
def ChildOf (r : Recognition) (child parent : ItemRef) : Prop :=
  (∃ it, r.run.chart.item? parent = some it ∧ r.grammar.structural.next? it = none) ∧
    ∃ cursor source, Relation.ReflTransGen r.MovedFrom parent cursor ∧
      .completed source child ∈ r.run.chart.sources cursor

/-! ### Children lie below their parents -/

/-- An item with a source moved over one symbol, which spans the places in between. -/
theorem Ended.of_mem_sources (hr : r.Ended) (hit : r.run.chart.item? ref = some it)
    (hsrc : src ∈ r.run.chart.sources ref) :
    ∃ w s, it = w.advanced ∧ r.run.chart.item? src.item = some w ∧
      r.grammar.structural.next? w = some s ∧
      r.grammar.structural.Spans r.lattice [s] src.item.set ref.set := by
  obtain ⟨id, dot, origin⟩ := it
  cases dot with
  | zero =>
    rw [hr.finished.arises.sources_eq_nil hit rfl] at hsrc
    cases hsrc
  | succ dot =>
    have hmoved : r.run.chart.item? ref = some (Item.advanced ⟨id, dot, origin⟩) := hit
    rcases (hr.mem_sources_iff hmoved src).mp hsrc with
      ⟨source, trigger, rfl, hsource, ⟨s, cid, hnext, -, hcid, htrigger⟩, hset⟩ |
      ⟨source, rfl, hsource, s, hnext, htoken⟩
    · refine ⟨_, s, rfl, hsource, hnext, ?_⟩
      rw [← hset]
      exact hr.spans_of_complete hcid htrigger
    · exact ⟨_, s, rfl, hsource, hnext, RuleTable.spans_singleton_iff.mpr
        (Or.inl ⟨(hr.expected_of_token htoken).2, htoken⟩)⟩

/-- On the way to the left an item stays in its rule, and what it has moved over spans the
    places up to where it set out. -/
theorem Ended.spans_of_movedFrom (hr : r.Ended) (hit : r.run.chart.item? parent = some it)
    (hcomplete : r.grammar.structural.next? it = none)
    (h : Relation.ReflTransGen r.MovedFrom parent cursor) :
    ∃ w, r.run.chart.item? cursor = some w ∧ w.rule = it.rule ∧ w.origin = it.origin ∧
      r.grammar.structural.Spans r.lattice ((r.grammar.structural.rhs w.rule).drop w.dot)
        cursor.set parent.set := by
  induction h with
  | refl =>
    refine ⟨it, hit, rfl, rfl, ?_⟩
    rw [List.drop_eq_nil_of_le (RuleTable.next?_eq_none_iff.mp hcomplete)]
    exact RuleTable.spans_nil_iff.mpr rfl
  | tail _ hmoved ih =>
    obtain ⟨v, hv, hrule, horigin, hrest⟩ := ih
    obtain ⟨src, hsrc, rfl⟩ := hmoved
    obtain ⟨w, s, rfl, hw, hnext, hspans⟩ := hr.of_mem_sources hv hsrc
    exact ⟨w, hw, hrule, horigin, spans_drop_of_next? hnext hspans hrest⟩

/-- A child is a complete item that lies below its parent. -/
theorem Ended.below_of_childOf (hr : r.Ended) {s : SymbolId} (h : r.ChildOf child parent)
    (hit : r.run.chart.item? parent = some it)
    (hlhs : r.grammar.structural.lhs? it.rule = some s) :
    ∃ c, r.run.chart.item? child = some c ∧ r.grammar.structural.next? c = none ∧
      r.Below s (parent.set - it.origin) child c := by
  obtain ⟨⟨it', hit', hcomplete⟩, cursor, source, hwalk, hsrc⟩ := h
  obtain rfl := Option.some_inj.mp (hit.symm.trans hit')
  obtain ⟨v, hv, hrule, horigin, hrest⟩ := hr.spans_of_movedFrom hit hcomplete hwalk
  obtain ⟨w, x, rfl, hw, hnext, -⟩ := hr.of_mem_sources hv hsrc
  rcases (hr.mem_sources_iff hv _).mp hsrc with
    ⟨source', trigger, heq, hsource, ⟨y, cid, hnext', -, hcid, htrigger⟩, hset⟩ |
    ⟨source', heq, -⟩
  · cases heq
    refine ⟨_, htrigger, RuleTable.next?_eq_none_iff.mpr (Nat.le_refl _), ?_⟩
    have hlhs' : r.grammar.structural.lhs? w.rule = some s := by
      rw [← hlhs, ← hrule]
      rfl
    have hbelow := hr.below_of_next? hw hlhs' htrigger (hcid.trans hnext'.symm) rfl
      (hset ▸ hrest)
    rwa [show w.origin = it.origin from horigin] at hbelow
  · cases heq

/-! ### No item lies below itself -/

/-- Below a complete item there are only finitely many steps from parents to children. The
    induction is on the span, and on the symbols that may consist of one another. -/
theorem Ended.acc_childOf (hr : r.Ended) (hit : r.run.chart.item? ref = some it) :
    Acc r.ChildOf ref := by
  obtain ⟨s, hs⟩ := (hr.admits hit).lhs
  generalize hspan : ref.set - it.origin = span
  induction span using Nat.strongRecOn generalizing ref it s with
  | _ span ihspan =>
    induction hr.coherent.acyclic s generalizing ref it with
    | _ s _ ihsymbol =>
      refine .intro _ fun child hchild => ?_
      obtain ⟨c, hc, -, x, hx, hless | ⟨hsame, hmem⟩⟩ := hr.below_of_childOf hchild hit hs
      · exact ihspan _ (hspan ▸ hless) hc x hx rfl
      · exact ihsymbol x hmem hc hx (hsame.trans hspan)

/-- Going from parents to children comes to an end. -/
theorem Ended.wellFounded_childOf (hr : r.Ended) : WellFounded r.ChildOf := by
  refine ⟨fun ref => .intro _ fun child hchild => ?_⟩
  obtain ⟨it, hit, -⟩ := hchild.1
  exact (hr.acc_childOf hit).inv hchild

/-- What lies below a complete item has a shorter span, or the same span and another symbol: one
    that the symbol of the item may consist of alone. -/
theorem Ended.below_of_transGen (hr : r.Ended) {s : SymbolId}
    (h : Relation.TransGen r.ChildOf child parent)
    (hit : r.run.chart.item? parent = some it)
    (hlhs : r.grammar.structural.lhs? it.rule = some s) :
    ∃ c x, r.run.chart.item? child = some c ∧ r.grammar.structural.lhs? c.rule = some x ∧
      (child.set - c.origin < parent.set - it.origin ∨
        child.set - c.origin = parent.set - it.origin ∧
          Relation.TransGen (fun a b => a ∈ Draft.aloneFrom r.grammar.structural b) x s) := by
  induction h generalizing it s with
  | single h =>
    obtain ⟨c, hc, -, x, hx, hbelow⟩ := hr.below_of_childOf h hit hlhs
    exact ⟨c, x, hc, hx, hbelow.imp_right fun hsame => ⟨hsame.1, .single hsame.2⟩⟩
  | tail _ h ih =>
    obtain ⟨b, hb, -, y, hy, hbelow⟩ := hr.below_of_childOf h hit hlhs
    obtain ⟨c, x, hc, hx, hbelow'⟩ := ih hb hy
    refine ⟨c, x, hc, hx, ?_⟩
    rcases hbelow with hless | ⟨hsame, hmem⟩
    · exact Or.inl (hbelow'.elim (fun h => Nat.lt_trans h hless) fun h => h.1 ▸ hless)
    · rcases hbelow' with hless' | ⟨hsame', hmem'⟩
      · exact Or.inl (hsame ▸ hless')
      · exact Or.inr ⟨hsame'.trans hsame, hmem'.tail hmem⟩

/-- No symbol is derived from itself over the same span. -/
theorem Ended.lhs?_ne_of_transGen (hr : r.Ended) {c p : Item}
    (h : Relation.TransGen r.ChildOf child parent) (hc : r.run.chart.item? child = some c)
    (hp : r.run.chart.item? parent = some p) (horigin : c.origin = p.origin)
    (hset : child.set = parent.set) :
    r.grammar.structural.lhs? c.rule ≠ r.grammar.structural.lhs? p.rule := by
  obtain ⟨s, hs⟩ := (hr.admits hp).lhs
  obtain ⟨c', x, hc', hx, hless | ⟨-, hmem⟩⟩ := hr.below_of_transGen h hp hs
  · obtain rfl := Option.some_inj.mp (hc.symm.trans hc')
    rw [horigin, hset] at hless
    exact absurd hless (Nat.lt_irrefl _)
  · obtain rfl := Option.some_inj.mp (hc.symm.trans hc')
    rw [hx, hs]
    rintro ⟨⟩
    exact (WellFounded.intro hr.coherent.acyclic).transGen.asymmetric _ _ hmem hmem

/-! ### The children that are chosen -/

/-- Where no source is chosen no children are found. -/
theorem childrenFrom_of_none {rule : Rule} (h : r.chosen? ref = none) (steps : Nat)
    (found : List Child) : r.childrenFrom rule steps ref found = found := by
  cases steps with
  | zero => rfl
  | succ steps =>
    rw [childrenFrom]
    cases he : r.entry? ref with
    | none => rfl
    | some e =>
      rw [chosen?, he, Option.bind_some] at h
      simp only [h]

theorem exists_item?_of_chosen? (h : r.chosen? ref = some src) :
    ∃ it, r.run.chart.item? ref = some it := by
  refine Option.ne_none_iff_exists'.mp fun hnone => ?_
  have hentry : r.entry? ref = none := by
    show r.run.chart.entry? ref = none
    rw [Chart.entry?_eq, hnone]
    rfl
  rw [chosen?, hentry] at h
  cases h

/-- The loop for the children of a rule takes as many steps as the dot of the item, however
    many it may take. -/
theorem Ended.childrenFrom_of_le (hr : r.Ended) {rule : Rule} {steps : Nat}
    (hit : r.run.chart.item? ref = some it) (hsteps : it.dot ≤ steps) (found : List Child) :
    r.childrenFrom rule steps ref found = r.childrenFrom rule it.dot ref found := by
  generalize hdot : it.dot = dot at hsteps
  induction dot generalizing ref it steps found with
  | zero =>
    have hnone := hr.chosen?_of_predicted hit hdot
    rw [childrenFrom_of_none hnone, childrenFrom_of_none hnone]
  | succ dot ih =>
    obtain ⟨src, hsrc⟩ := hr.exists_chosen? hit (by omega)
    obtain ⟨w, s, rfl, hw, -⟩ := hr.of_mem_sources hit (mem_of_chosen? hit hsrc)
    obtain ⟨steps, rfl⟩ := Nat.exists_eq_add_of_le' (Nat.le_trans (Nat.le_add_left 1 dot) hsteps)
    have hw' : w.dot = dot := Nat.succ.inj hdot
    rw [childrenFrom_succ hit hsrc, childrenFrom_succ hit hsrc]
    exact ih hw _ hw' (Nat.le_of_succ_le_succ hsteps)

theorem node_mem_childrenFrom {rule : Rule} {steps : Nat} {found : List Child}
    (h : .node child ∈ r.childrenFrom rule steps ref found) :
    .node child ∈ found ∨ ∃ cursor source, Relation.ReflTransGen r.MovedFrom ref cursor ∧
      .completed source child ∈ r.run.chart.sources cursor := by
  induction steps generalizing ref found with
  | zero => exact Or.inl h
  | succ steps ih =>
    cases hsrc : r.chosen? ref with
    | none =>
      rw [childrenFrom_of_none hsrc] at h
      exact Or.inl h
    | some src =>
      obtain ⟨it, hit⟩ := exists_item?_of_chosen? hsrc
      have hmem := mem_of_chosen? hit hsrc
      rw [childrenFrom_succ hit hsrc] at h
      rcases ih h with hfound | ⟨cursor, source, hwalk, hcursor⟩
      · split at hfound
        · rcases List.mem_cons.mp hfound with heq | hfound
          · cases src with
            | completed source trigger =>
              cases heq
              exact Or.inr ⟨ref, source, .refl, hmem⟩
            | scanned source start => cases heq
          · exact Or.inl hfound
        · exact Or.inl hfound
      · exact Or.inr ⟨cursor, source, .head ⟨src, hmem, rfl⟩ hwalk, hcursor⟩

/-- The children that are chosen are among those over all sources. -/
theorem childOf_of_mem_children (hit : r.run.chart.item? ref = some it)
    (hcomplete : r.grammar.structural.next? it = none) (h : .node child ∈ r.children ref) :
    r.ChildOf child ref := by
  rw [children] at h
  split at h
  · obtain hnone | hfound := node_mem_childrenFrom h
    · cases hnone
    · exact ⟨⟨it, hit, hcomplete⟩, hfound⟩
  · cases h

/-! ### Leaves and values -/

theorem exists_expands_map {children : List Child}
    (h : ∀ child ∈ children, ∃ found, r.Expands [r.pendingFor child] found) :
    ∃ found, r.Expands (children.map r.pendingFor) found := by
  induction children with
  | nil => exact ⟨[], .nil⟩
  | cons child children ih =>
    rw [List.forall_mem_cons] at h
    obtain ⟨found, hfound⟩ := h.1
    obtain ⟨more, hmore⟩ := ih h.2
    exact ⟨found ++ more, hfound.append hmore⟩

/-- The leaves of every complete item are found. The induction goes from parents to children. -/
theorem Ended.exists_expands (hr : r.Ended) (hit : r.run.chart.item? ref = some it)
    (hcomplete : r.grammar.structural.next? it = none) :
    ∃ found, r.Expands [.expand ref] found := by
  induction ref using hr.wellFounded_childOf.induction generalizing it with
  | _ ref ih =>
    obtain ⟨found, hfound⟩ : ∃ found, r.Expands ((r.children ref).map r.pendingFor) found := by
      refine exists_expands_map fun child hchild => ?_
      cases child with
      | lexeme start stop => exact ⟨_, .emit _⟩
      | node c =>
        rw [pendingFor]
        split
        · have hchildOf := childOf_of_mem_children hit hcomplete hchild
          obtain ⟨s, hs⟩ := (hr.admits hit).lhs
          obtain ⟨it', hit', hcomplete', -⟩ := hr.below_of_childOf hchildOf hit hs
          exact ih c hchildOf hit' hcomplete'
        · exact ⟨_, .emit _⟩
    exact ⟨found, hfound.expand⟩

theorem Ended.ends_leavesStep (hr : r.Ended) (hit : r.run.chart.item? ref = some it)
    (hcomplete : r.grammar.structural.next? it = none) :
    Ends r.leavesStep ([.expand ref], #[]) (r.leaves ref) := by
  obtain ⟨found, hfound⟩ := hr.exists_expands hit hcomplete
  rw [hfound.leaves_eq]
  exact hfound.ends

end Recognition

section

variable {V : Type} [Semantic V]

/-- Evaluation always ends. Going from complete items to their children, over whatever sources,
    comes to an end: no item lies below itself, and what lies below an item over the same span has
    another symbol. So the loops for children and for leaves end at every complete item, and with
    any actions the machine comes to its end and visits complete items only. -/
theorem evaluation_ends {g : Grammar} {limit : Option Nat} {input : String} {r : Recognition}
    (hg : g.IsCompiled) (hr : recognize g limit input = .ok r) (hok : r.failure? = none) :
    WellFounded r.ChildOf ∧ (∀ ref, ¬Relation.TransGen r.ChildOf ref ref) ∧
    (∀ child parent c p, Relation.TransGen r.ChildOf child parent →
      r.run.chart.item? child = some c → r.run.chart.item? parent = some p →
      c.origin = p.origin → child.set = parent.set →
      r.grammar.structural.lhs? c.rule ≠ r.grammar.structural.lhs? p.rule) ∧
    (∀ ref it, r.run.chart.item? ref = some it → r.grammar.structural.next? it = none →
      (∀ child, .node child ∈ r.children ref → r.ChildOf child ref) ∧
      (∀ rule steps, it.dot ≤ steps →
        r.childrenFrom rule steps ref [] = r.childrenFrom rule it.dot ref []) ∧
      Ends r.leavesStep ([.expand ref], #[]) (r.leaves ref)) ∧
    ∀ actions : Registry V, ∃ root, r.chooseRoot = some root ∧
      Ends (Machine.step r actions) (Machine.initial root) (r.evaluate actions) ∧
      ∀ m, Passes (Machine.step r actions) (Machine.initial root) m →
        ∀ ref, .visit ref ∈ m.tasks →
          ∃ it, r.run.chart.item? ref = some it ∧ r.grammar.structural.next? it = none := by
  have hended := ended_of_recognize hg hr
  have hfounded := hended.wellFounded_childOf
  refine ⟨hfounded, fun ref h => hfounded.transGen.asymmetric _ _ h h,
    fun child parent c p h hc hp => hended.lhs?_ne_of_transGen h hc hp,
    fun ref it hit hcomplete => ⟨fun child => Recognition.childOf_of_mem_children hit hcomplete,
      fun rule steps hsteps => hended.childrenFrom_of_le hit hsteps [],
      hended.ends_leavesStep hit hcomplete⟩, fun actions => ?_⟩
  obtain ⟨tree, hchosen⟩ := hended.exists_chosen hok
  obtain ⟨root, it, us, hroot, hit, hus, rfl⟩ := id hchosen
  refine ⟨root, hroot, ?_, fun m hm ref href => ?_⟩
  · rw [hended.evaluate_eq actions hchosen]
    exact hended.ends_evaluate actions hroot hit hus
  · have hcomplete : r.grammar.structural.next? it = none := by
      rw [(hended.chooseRoot_cases hroot hit).1]
      exact RuleTable.next?_eq_none_iff.mpr (Nat.le_refl _)
    obtain ⟨x, -, hstands⟩ :=
      Machine.Within.of_passes hended (.node hit hcomplete hus) hm (.node ref) href
    cases hstands with
    | node hit' hcomplete' => exact ⟨_, hit', hcomplete'⟩

end

/-- Sums of letters in tiers, with something that may be empty around each letter. -/
def Definition.paddedSums : Definition :=
  ⟨[.prioritized "sum" [[Alternative.ofItems ["pad", "letter", "pad"]],
      [Alternative.ofItems ["sum", "'+'", "sum"]]],
    .rule "pad" [], .rule "pad" ["','"], .lexeme "letter" ["'a'"]], "sums"⟩

/-- The rule of a sum hands on the value of a tier over the same span, and does not come back
    to the sum from there. -/
theorem evaluation_ends_paddedSums :
    ∃ g r root tier, Definition.paddedSums.compile = .ok g ∧ recognize g none "a+,a" = .ok r ∧
      r.chooseRoot = some root ∧ r.children root = [.node tier] ∧ tier.set = root.set ∧
      r.ChildOf tier root ∧ ¬Relation.TransGen r.ChildOf root tier ∧
      Ends (Machine.step r (.empty : Registry Value)) (Machine.initial root)
        (r.evaluate (.empty : Registry Value)) := by
  have htest : Definition.paddedSums.compile.toOption.any (fun g =>
      (recognize g none "a+,a").toOption.any fun r => r.failure?.isNone &&
        r.chooseRoot.any fun root => ((r.run.chart.item? root).any fun it =>
            r.grammar.structural.next? it == none) &&
          (List.range 20).any fun i => r.children root == [.node ⟨root.set, i⟩]) = true := by
    decide +kernel
  obtain ⟨g, hg, htest⟩ := exists_eq_ok_of_any htest
  obtain ⟨r, hr, htest⟩ := exists_eq_ok_of_any htest
  rw [Bool.and_eq_true] at htest
  obtain ⟨hok, htest⟩ := htest
  obtain ⟨root, hroot, htest⟩ := (Option.any_eq_true _ _).mp htest
  rw [Bool.and_eq_true] at htest
  obtain ⟨it, hit, hcomplete⟩ := (Option.any_eq_true _ _).mp htest.1
  obtain ⟨index, -, hchildren⟩ := List.any_eq_true.mp htest.2
  have hchildren : r.children root = [.node ⟨root.set, index⟩] := eq_of_beq hchildren
  obtain ⟨-, hacyclic, -, hitems, hends⟩ :=
    evaluation_ends (V := Value) (Or.inl ⟨_, hg⟩) hr (Option.isNone_iff_eq_none.mp hok)
  have hchild : r.ChildOf ⟨root.set, index⟩ root :=
    (hitems root it hit (beq_iff_eq.mp hcomplete)).1 _ (by simp [hchildren])
  obtain ⟨root', hroot', hend, -⟩ := hends .empty
  obtain rfl := Option.some_inj.mp (hroot.symm.trans hroot')
  exact ⟨g, r, root, ⟨root.set, index⟩, hg, hr, hroot, hchildren, rfl, hchild,
    fun h => hacyclic root (h.tail hchild), hend⟩

end Scannerless
