import Mathlib.Data.Finset.Card
import Mathlib.Data.Finset.Range
import Scannerless.Digraph
import Scannerless.Proofs.Outcomes

/-!
# Graphs without cycles

A search that finds no cycle leaves every node done, and a node is only left when all its
successors are done. So nothing can be followed forever from any node. A search goes no
deeper than there are new nodes.

## Main definitions

- `Digraph.successors` — the edges of a graph that is given by lists.
- `Digraph.Search.Explored` — from done nodes nothing can be followed forever.
- `Digraph.Search.After` — a search that is further than another one.
- `Digraph.Leaves` — visits leave the nodes done that they are made to.
- `Digraph.Passed` — a search that has passed all nodes below a number.

## Main statements

- `Digraph.visit_ok` — what a visit without a cycle does.
- `Digraph.acc_of_findCycle` — without a cycle nothing can be followed forever.
-/

namespace Scannerless.Digraph

/-- The successors of a node, none outside of a graph. -/
def successors (edges : Array (List Nat)) (node : Nat) : List Nat :=
  edges.getD node []

variable {edges : Nat → List Nat} {size depth : Nat} {s s' s'' : Search} {n node : Nat}

namespace Search

/-- From a done node nothing can be followed forever. -/
def Explored (edges : Nat → List Nat) (s : Search) : Prop :=
  ∀ n, s.mark n = .done → Acc (fun a b => a ∈ edges b) n

/-- A search that is further than another one: nodes are entered and left, and no more
    of them are on the path. -/
structure After (s s' : Search) : Prop where
  size : s'.marks.size = s.marks.size
  new : ∀ n, s'.mark n = .new → s.mark n = .new
  active : ∀ n, s'.mark n = .active → s.mark n = .active
  done : ∀ n, s.mark n = .done → s'.mark n = .done

theorem After.refl (s : Search) : s.After s :=
  ⟨rfl, fun _ h => h, fun _ h => h, fun _ h => h⟩

theorem After.trans (h : s.After s') (h' : s'.After s'') : s.After s'' :=
  ⟨h'.size.trans h.size, fun n hn => h.new n (h'.new n hn),
    fun n hn => h.active n (h'.active n hn), fun n hn => h'.done n (h.done n hn)⟩

theorem lt_of_mark_ne (h : s.mark n ≠ .done) : n < s.marks.size := by
  refine Nat.lt_of_not_le fun hle => h ?_
  rw [mark, Array.getD_eq_getD_getElem?, Array.getElem?_eq_none hle]
  rfl

theorem lt_of_new (h : s.mark n = .new) : n < s.marks.size :=
  lt_of_mark_ne (by simp [h])

theorem mark_setIfInBounds (path : List Nat) (hnode : node < s.marks.size) (m : Mark) (n : Nat) :
    (Search.mk (s.marks.setIfInBounds node m) path).mark n = if n = node then m else s.mark n := by
  rw [mark, mark, Array.getD_eq_getD_getElem?, Array.getElem?_setIfInBounds,
    Array.getD_eq_getD_getElem?]
  by_cases h : node = n
  · subst h
    simp [hnode]
  · simp [h, Ne.symm h]

theorem mark_enter (hnode : node < s.marks.size) (n : Nat) :
    (s.enter node).mark n = if n = node then .active else s.mark n :=
  mark_setIfInBounds _ hnode _ n

theorem mark_leave (hnode : node < s.marks.size) (n : Nat) :
    (s.leave node).mark n = if n = node then .done else s.mark n :=
  mark_setIfInBounds _ hnode _ n

def newNodes (s : Search) : Finset Nat :=
  (Finset.range s.marks.size).filter fun n => s.mark n = .new

theorem mem_newNodes_iff : n ∈ s.newNodes ↔ s.mark n = .new := by
  rw [newNodes, Finset.mem_filter, Finset.mem_range, and_iff_right_iff_imp]
  intro h
  exact lt_of_new h

theorem card_newNodes_pos (h : s.mark n = .new) : 0 < s.newNodes.card :=
  Finset.card_pos.mpr ⟨n, mem_newNodes_iff.mpr h⟩

theorem After.card_le (h : s.After s') : s'.newNodes.card ≤ s.newNodes.card :=
  Finset.card_le_card fun n hn => mem_newNodes_iff.mpr (h.new n (mem_newNodes_iff.mp hn))

theorem card_newNodes_enter (h : s.mark node = .new) :
    (s.enter node).newNodes.card < s.newNodes.card := by
  have hlt : node < s.marks.size := lt_of_new h
  refine Finset.card_lt_card ⟨fun n hn => ?_, fun hsub => ?_⟩
  · rw [mem_newNodes_iff, mark_enter hlt] at hn
    rw [mem_newNodes_iff]
    split at hn
    · cases hn
    · exact hn
  · have hnode := hsub (mem_newNodes_iff.mpr h)
    rw [mem_newNodes_iff, mark_enter hlt, if_pos rfl] at hnode
    cases hnode

theorem card_newNodes_le (s : Search) : s.newNodes.card ≤ s.marks.size := by
  refine (Finset.card_filter_le _ _).trans ?_
  rw [Finset.card_range]

theorem Explored.enter (hs : s.Explored edges) (hlt : node < s.marks.size) :
    (s.enter node).Explored edges := by
  intro n hn
  rw [mark_enter hlt] at hn
  split at hn
  · cases hn
  · exact hs n hn

/-- A node may be left when all its successors are done. -/
theorem Explored.leave (hs : s.Explored edges) (hlt : node < s.marks.size)
    (hall : ∀ next ∈ edges node, s.mark next = .done) : (s.leave node).Explored edges := by
  intro n hn
  by_cases hnode : n = node
  · subst hnode
    exact ⟨_, fun next hnext => hs next (hall next hnext)⟩
  · rw [mark_leave hlt, if_neg hnode] at hn
    exact hs n hn

/-- What is done between entering and leaving a node is done further on. -/
theorem After.leave (hlt : node < s.marks.size) (h : (s.enter node).After s') :
    s.After (s'.leave node) := by
  have hsize : s'.marks.size = s.marks.size := h.size.trans Array.size_setIfInBounds
  have hlt' : node < s'.marks.size := by omega
  -- Other nodes have the marks that they had in between.
  have hmark (n : Nat) (hnode : n ≠ node) : (s.enter node).mark n = s.mark n := by
    rw [mark_enter hlt, if_neg hnode]
  constructor
  case size => exact Array.size_setIfInBounds.trans hsize
  case new =>
    intro n hn
    rw [mark_leave hlt'] at hn
    split at hn
    · cases hn
    next hnode => rw [← hmark n hnode]; exact h.new n hn
  case active =>
    intro n hn
    rw [mark_leave hlt'] at hn
    split at hn
    · cases hn
    next hnode => rw [← hmark n hnode]; exact h.active n hn
  case done =>
    intro n hn
    rw [mark_leave hlt']
    split
    · rfl
    next hnode => exact h.done n (by rwa [hmark n hnode])

end Search

open Search

/-- The part of a visit that goes on to a successor. -/
def follow (edges : Nat → List Nat) (depth : Nat) (s : Search) (next : Nat) :
    Except (List Nat) Search :=
  match s.mark next with
  | .active => .error (s.cycleAt next)
  | .new => visit edges depth next s
  | .done => .ok s

theorem visit_succ (edges : Nat → List Nat) (depth node : Nat) (s : Search) :
    visit edges (depth + 1) node s =
      match (edges node).foldlM (follow edges depth) (s.enter node) with
      | .error cycle => .error cycle
      | .ok s => .ok (s.leave node) :=
  rfl

/-- Visits of at most `depth` new nodes leave the nodes done that they are made to. -/
def Leaves (edges : Nat → List Nat) (depth : Nat) : Prop :=
  ∀ ⦃node : Nat⦄ ⦃s s' : Search⦄, s.mark node = .new → s.newNodes.card ≤ depth →
    s.Explored edges → visit edges depth node s = .ok s' →
    s'.Explored edges ∧ s.After s' ∧ s'.mark node = .done

theorem Leaves.follow (hleaves : Leaves edges depth) (hdepth : s.newNodes.card ≤ depth)
    (hs : s.Explored edges) (h : follow edges depth s node = .ok s') :
    s'.Explored edges ∧ s.After s' ∧ s'.mark node = .done := by
  rw [Digraph.follow] at h
  split at h
  · cases h
  next hnew => exact hleaves hnew hdepth hs h
  next hdone =>
    obtain rfl := Except.ok.inj h
    exact ⟨hs, .refl s, hdone⟩

/-- Going through nodes leaves all of them done. -/
theorem Leaves.foldlM (hleaves : Leaves edges depth) (nexts : List Nat)
    (hdepth : s.newNodes.card ≤ depth) (hs : s.Explored edges)
    (h : nexts.foldlM (Digraph.follow edges depth) s = .ok s') :
    s'.Explored edges ∧ s.After s' ∧ ∀ next ∈ nexts, s'.mark next = .done := by
  induction nexts generalizing s with
  | nil =>
    obtain rfl := Except.ok.inj h
    exact ⟨hs, .refl s, by simp⟩
  | cons next nexts ih =>
    rw [List.foldlM_cons, bind_eq_ok_iff] at h
    obtain ⟨c, hc, h⟩ := h
    obtain ⟨hexplored, hafter, hdone⟩ := hleaves.follow hdepth hs hc
    obtain ⟨hs', hafter', hall⟩ := ih (hafter.card_le.trans hdepth) hexplored h
    refine ⟨hs', hafter.trans hafter', fun n hn => ?_⟩
    rcases List.mem_cons.mp hn with rfl | hn
    · exact hafter'.done _ hdone
    · exact hall n hn

/-- A visit of a new node without a cycle leaves the node done. Each level of the search
    enters a new node, so that the depth is enough. -/
theorem visit_ok (edges : Nat → List Nat) (depth : Nat) : Leaves edges depth := by
  induction depth with
  | zero =>
    intro node s s' hnew hdepth
    exact absurd hdepth (Nat.not_le_of_lt (card_newNodes_pos hnew))
  | succ depth ih =>
    intro node s s' hnew hdepth hs h
    have hlt : node < s.marks.size := lt_of_new hnew
    rw [visit_succ] at h
    split at h
    · cases h
    next b hb =>
      obtain rfl := Except.ok.inj h
      have hcard := card_newNodes_enter hnew
      obtain ⟨hexplored, hafter, hall⟩ := ih.foldlM _ (by omega) (hs.enter hlt) hb
      have hblt : node < b.marks.size := by
        rw [hafter.size]
        exact Array.size_setIfInBounds.symm ▸ hlt
      exact ⟨hexplored.leave hblt hall, hafter.leave hlt, by rw [mark_leave hblt, if_pos rfl]⟩

/-! ### Searches from all nodes -/

/-- The nodes below `k` are done, and none is on the path. -/
structure Passed (edges : Nat → List Nat) (size k : Nat) (s : Search) : Prop where
  size : s.marks.size = size
  explored : s.Explored edges
  inactive : ∀ n, s.mark n ≠ .active
  done : ∀ n, n < k → s.mark n = .done

theorem acc_of_le (hedges : ∀ n, size ≤ n → edges n = []) (hn : size ≤ n) :
    Acc (fun a b => a ∈ edges b) n :=
  ⟨n, fun next hnext => by rw [hedges n hn] at hnext; cases hnext⟩

theorem Passed.zero (hedges : ∀ n, size ≤ n → edges n = []) :
    Passed edges size 0 ⟨Array.replicate size .new, []⟩ := by
  have hmark (n : Nat) :
      (Search.mk (Array.replicate size .new) []).mark n = if n < size then .new else .done := by
    by_cases hn : n < size <;> simp [mark, hn]
  constructor
  case size => exact Array.size_replicate
  case explored =>
    intro n hn
    refine acc_of_le hedges (Nat.le_of_not_lt fun hlt => ?_)
    rw [hmark, if_pos hlt] at hn
    cases hn
  case inactive =>
    intro n hn
    rw [hmark] at hn
    split at hn <;> cases hn
  case done =>
    intro n hn
    cases hn

theorem Passed.succ {k : Nat} (hs : Passed edges size k s)
    (h : (if s.mark k = .new then visit edges size k s else .ok s) = .ok s') :
    Passed edges size (k + 1) s' := by
  by_cases hnew : s.mark k = .new
  · rw [if_pos hnew] at h
    have hcard : s.newNodes.card ≤ size := hs.size ▸ s.card_newNodes_le
    obtain ⟨hexplored, hafter, hdone⟩ := visit_ok edges size hnew hcard hs.explored h
    refine ⟨hafter.size.trans hs.size, hexplored,
      fun n hn => hs.inactive n (hafter.active n hn), fun n hn => ?_⟩
    rcases Nat.lt_succ_iff_lt_or_eq.mp hn with hn | rfl
    · exact hafter.done n (hs.done n hn)
    · exact hdone
  · rw [if_neg hnew] at h
    obtain rfl := Except.ok.inj h
    -- A node that is not new and not on the path is done already.
    refine ⟨hs.size, hs.explored, hs.inactive, fun n hn => ?_⟩
    rcases Nat.lt_succ_iff_lt_or_eq.mp hn with hn | rfl
    · exact hs.done n hn
    · cases hmark : s.mark n with
      | new => exact absurd hmark hnew
      | active => exact absurd hmark (hs.inactive n)
      | done => rfl

/-- Without a cycle nothing can be followed forever. -/
theorem acc_of_findCycle (h : findCycle edges size = none)
    (hedges : ∀ n, size ≤ n → edges n = []) (n : Nat) : Acc (fun a b => a ∈ edges b) n := by
  rw [findCycle] at h
  split at h
  · cases h
  next s hs =>
    have hpassed : Passed edges size size s :=
      foldlM_ok_induction hs (P := Passed edges size) (.zero hedges)
        fun _ _ _ _ ha hab => ha.succ hab
    by_cases hn : n < size
    · exact hpassed.explored n (hpassed.done n hn)
    · exact acc_of_le hedges (Nat.le_of_not_lt hn)

end Scannerless.Digraph
