import Scannerless.Proofs.Recognition.Policy

/-!
# Readings at other places

The same tokens may lie at other places. If places of one lattice stand opposite to places of
another one, in the same order, and the same tokens lead from opposite places to opposite places,
then charts have the same items at opposite places, and the policy picks the same trees.

## Main definitions

- `Lattice.Aligned` — tokens lead from opposite places to opposite places.
- `Tree.Mirror` — trees of the same rules.

## Main statements

- `Lattice.Aligned.spans_iff` — what is between opposite places.
- `RuleTable.Prefers.aligned` — the policy picks the same trees.
- `Chart.Arises.aligned` — charts have the same items at opposite places.
-/

namespace Scannerless

/-- Places of a lattice stand opposite to places of another one, in the same order. The same
    tokens lead from places that stand opposite to places that do so, and from one place only. -/
structure Lattice.Aligned (l l' : Lattice) (opposite : Nat → Nat → Prop) : Prop where
  lt_iff : ∀ {k k' m m'}, opposite k k' → opposite m m' → (k < m ↔ k' < m')
  forth : ∀ {k k' s j}, opposite k k' → l.token k s j → ∃ j', opposite j j' ∧ l'.token k' s j'
  back : ∀ {k k' s j'}, opposite k k' → l'.token k' s j' → ∃ j, opposite j j' ∧ l.token k s j
  origin : ∀ {k k' m m' s s' j}, opposite k k' → opposite m m' → l.token k s j →
    l.token m s' j → k = m

variable {l l' : Lattice} {opposite : Nat → Nat → Prop}

namespace Lattice.Aligned

variable {i i' j j' k k' m m' : Nat} {s : SymbolId}

theorem eq_iff (h : l.Aligned l' opposite) (hk : opposite k k') (hm : opposite m m') :
    k = m ↔ k' = m' := by
  have hlt := h.lt_iff hk hm
  have hgt := h.lt_iff hm hk
  omega

theorem right_unique (h : l.Aligned l' opposite) (hk : opposite k k') (hk' : opposite k m') :
    k' = m' :=
  (h.eq_iff hk hk').mp rfl

theorem token_iff (h : l.Aligned l' opposite) (hk : opposite k k') (hj : opposite j j') :
    l.token k s j ↔ l'.token k' s j' := by
  constructor
  · intro htoken
    obtain ⟨m', hm, htoken'⟩ := h.forth hk htoken
    rwa [h.right_unique hj hm]
  · intro htoken
    obtain ⟨m, hm, htoken'⟩ := h.back hk htoken
    rwa [(h.eq_iff hj hm).mpr rfl]

theorem symm (h : l.Aligned l' opposite) : l'.Aligned l (flip opposite) where
  lt_iff hk hm := (h.lt_iff hk hm).symm
  forth := h.back
  back := h.forth
  origin hk hm hs hs' := by
    obtain ⟨j, hj, htoken⟩ := h.back hk hs
    obtain ⟨j₂, hj₂, htoken₂⟩ := h.back hm hs'
    obtain rfl := (h.eq_iff hj hj₂).mpr rfl
    exact (h.eq_iff hk hm).mp (h.origin hk hm htoken htoken₂)

/-! ### Readings -/

variable {t : RuleTable} {ss : List SymbolId} {id : RuleId}

/-- What is read from a place on is read from the opposite place on. -/
theorem spans (h : l.Aligned l' opposite) (hi : opposite i i') (hspans : t.Spans l ss i j) :
    ∃ j', opposite j j' ∧ t.Spans l' ss i' j' := by
  obtain ⟨ts, hts⟩ := hspans
  induction hts generalizing i' with
  | nil => exact ⟨i', hi, [], .nil i'⟩
  | token _ hs hj ih =>
    obtain ⟨k', hk, hss⟩ := ih hi
    obtain ⟨j', hj', htoken⟩ := h.forth hk hj
    exact ⟨j', hj', RuleTable.spans_concat_iff.mpr ⟨k', hss, Or.inl ⟨hs, htoken⟩⟩⟩
  | node _ hid _ ihss ihus =>
    obtain ⟨k', hk, hss⟩ := ihss hi
    obtain ⟨j', hj', hus⟩ := ihus hk
    exact ⟨j', hj', RuleTable.spans_concat_iff.mpr ⟨k', hss, Or.inr ⟨_, hid, hus⟩⟩⟩

theorem spans_iff (h : l.Aligned l' opposite) (hi : opposite i i') (hj : opposite j j') :
    t.Spans l ss i j ↔ t.Spans l' ss i' j' := by
  constructor
  · intro hspans
    obtain ⟨m', hm, hspans'⟩ := h.spans hi hspans
    rwa [h.right_unique hj hm]
  · intro hspans
    obtain ⟨m, hm, hspans'⟩ := h.symm.spans hi hspans
    rwa [h.symm.right_unique hj hm]

/-! ### The policy -/

/-- A token that is the best way to read a symbol is so at opposite places: no other way leads
    to its end. -/
theorem best_token (h : l.Aligned l' opposite) (hi : opposite i i') (hk : opposite k k')
    (hj : opposite j j') (hbest : t.Best l ss s i j (.token k)) :
    t.Best l' ss s i' j' (.token k') := by
  cases hbest.possible with
  | token hss hs htoken =>
    refine ⟨.token ((h.spans_iff hi hk).mp hss) hs ((h.token_iff hk hj).mp htoken),
      fun other hother hne => ?_⟩
    cases hother with
    | node _ hid _ =>
      rw [RuleTable.hasRules_of_mem hid] at hs
      cases hs
    | @token m' hss' _ htoken' =>
      obtain ⟨m, hm, -⟩ := h.symm.spans hi hss'
      have hsame := h.origin hm hk ((h.token_iff hm hj).mpr htoken') htoken
      exact absurd (congrArg RuleTable.Pick.token ((h.eq_iff hm hk).mp hsame)) hne

/-- A rule that is the best way to read a symbol is so at opposite places. -/
theorem best_node (h : l.Aligned l' opposite) (hi : opposite i i') (hk : opposite k k')
    (hj : opposite j j') (hbest : t.Best l ss s i j (.node id k)) :
    t.Best l' ss s i' j' (.node id k') := by
  cases hbest.possible with
  | node hss hid hrhs =>
    refine ⟨.node ((h.spans_iff hi hk).mp hss) hid ((h.spans_iff hk hj).mp hrhs),
      fun other hother hne => ?_⟩
    cases hother with
    | token _ hs _ =>
      rw [RuleTable.hasRules_of_mem hid] at hs
      cases hs
    | @node id' m' hss' hid' hrhs' =>
      obtain ⟨m, hm, hfront⟩ := h.symm.spans hi hss'
      have hpossible : t.Possible l ss s i j (.node id' m) :=
        .node hfront hid' ((h.spans_iff hm hj).mpr hrhs')
      have hother : RuleTable.Pick.node id' m ≠ .node id k := by
        intro heq
        obtain ⟨rfl, hsame⟩ := RuleTable.Pick.node.inj heq
        exact hne (congrArg _ ((h.eq_iff hm hk).mp hsame))
      have hbetter := hbest.better _ hpossible hother
      rwa [RuleTable.Better, h.lt_iff hk hm] at hbetter

end Lattice.Aligned

/-- Trees of the same rules over tokens of the same symbols, whose spans are alike. The lists
    grow at their ends, as readings do. -/
inductive Tree.Mirror (alike : Nat → Nat → Nat → Nat → Prop) : List Tree → List Tree → Prop where
  | nil : Mirror alike [] []
  | token {ts ts' : List Tree} {s : SymbolId} {k k' i i' j j' : Nat} (hts : Mirror alike ts ts')
      (hsame : alike i j i' j') :
      Mirror alike (ts ++ [.token s k i j]) (ts' ++ [.token s k' i' j'])
  | node {ts ts' us us' : List Tree} {id : RuleId} {k k' j j' : Nat} (hts : Mirror alike ts ts')
      (hus : Mirror alike us us') :
      Mirror alike (ts ++ [.node id k j us]) (ts' ++ [.node id k' j' us'])

/-- The policy picks the same trees at opposite places. -/
theorem RuleTable.Prefers.aligned {t : RuleTable} {ss : List SymbolId} {i i' j : Nat}
    {ts : List Tree} {alike : Nat → Nat → Nat → Nat → Prop} (hts : t.Prefers l ss i j ts)
    (h : l.Aligned l' opposite) (hi : opposite i i')
    (halike : ∀ k k' s j j', opposite k k' → opposite j j' → l.token k s j →
      alike (l.start k) j (l'.start k') j') :
    ∃ j' ts', opposite j j' ∧ t.Prefers l' ss i' j' ts' ∧ Tree.Mirror alike ts ts' := by
  induction hts generalizing i' with
  | nil => exact ⟨i', [], hi, .nil i', .nil⟩
  | token hbest _ ih =>
    obtain ⟨k', ts', hk, hts', hmirror⟩ := ih hi
    cases hbest.possible with
    | token _ _ htoken =>
      obtain ⟨j', hj, -⟩ := h.forth hk htoken
      exact ⟨j', _, hj, .token (h.best_token hi hk hj hbest) hts',
        .token hmirror (halike _ _ _ _ _ hk hj htoken)⟩
  | node hbest _ _ ihss ihus =>
    obtain ⟨k', ts', hk, hts', hmirror⟩ := ihss hi
    obtain ⟨j', us', hj, hus', hmirror'⟩ := ihus hk
    exact ⟨j', _, hj, .node (h.best_node hi hk hj hbest) hts' hus', .node hmirror hmirror'⟩

/-! ### Items -/

/-- What is in a set of a chart that arises is in the opposite set of a chart that has all that its
    items call for. -/
theorem Chart.Arises.aligned {t : RuleTable} {c c' : Chart t} {starts : List SymbolId}
    (hc : c.Arises starts l) (hc' : c'.Finished starts l') (h : l.Aligned l' opposite)
    (hzero : opposite 0 0) {ref : ItemRef} {it : Item} (hit : c.item? ref = some it) :
    ∃ k' o' m, opposite ref.set k' ∧ opposite it.origin o' ∧
      c'.item? ⟨k', m⟩ = some ⟨it.rule, it.dot, o'⟩ := by
  induction hc generalizing ref it with
  | ofSize count => simp at hit
  | grow _ ih => exact ih (by simpa using hit)
  | @apply c refs a _ ha ih =>
    rcases Chart.item?_add_cases hit with hold | ⟨hset, rfl⟩
    · exact ih hold
    rw [hset]
    cases ha with
    | start hs hid =>
      obtain ⟨m, hm, -⟩ := hc'.saturated _ _ (.start hs hid)
      exact ⟨0, 0, m, hzero, hzero, hm⟩
    | predicted hparent hs hid =>
      obtain ⟨k', o', m, hk, -, hm⟩ := ih hparent
      obtain ⟨n, hn, -⟩ := hc'.saturated _ _ (.predicted hm hs hid)
      exact ⟨k', k', n, hk, hk, hn⟩
    | completed hsource hchild hs hlhs hnext horigin =>
      obtain ⟨k', o', m, hk, ho, hm⟩ := ih hsource
      obtain ⟨j', p', n, hj, hp, hn⟩ := ih hchild
      rw [horigin] at hp
      obtain rfl := h.right_unique hk hp
      obtain ⟨q, hq, -⟩ := hc'.saturated _ _ (.completed hm hn hs hlhs hnext rfl)
      exact ⟨j', o', q, hj, ho, hq⟩
    | scanned hsource hs hterm htoken =>
      obtain ⟨k', o', m, hk, ho, hm⟩ := ih hsource
      obtain ⟨j', hj, htoken'⟩ := h.forth hk htoken
      obtain ⟨n, hn, -⟩ := hc'.saturated _ _ (.scanned hm hs hterm htoken')
      exact ⟨j', o', n, hj, ho, hn⟩

end Scannerless
