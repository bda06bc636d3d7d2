import Mathlib.Data.List.Chain
import Mathlib.Logic.Relation
import Scannerless.Proofs.Digraph

/-!
# Cycles that are found

The path of a search is a path of the graph, its last node first, and all active nodes
are on it. An edge from the last node to an active one closes the part of the path
between them.

## Main definitions

- `Digraph.IsCycle` — edges that lead from a node back to it.
- `Digraph.Search.Tracks` — the path of a search is one of the graph and has the active nodes.

## Main statements

- `Digraph.isCycle_of_findCycle` — what the search ends with is a cycle.
- `Digraph.findCycle_eq_none_iff` — the search finds nothing exactly if no node is reached
  from itself.
-/

namespace Scannerless.Digraph

variable {edges : Nat → List Nat} {size depth : Nat} {s s' : Search} {node next : Nat}

/-- Edges one behind the other from a node back to it, which stands at both ends. -/
def IsCycle (edges : Nat → List Nat) (cycle : List Nat) : Prop :=
  ∃ node between, cycle = node :: between ++ [node] ∧ cycle.IsChain fun a b => b ∈ edges a

theorem transGen_of_isChain {α : Type} {R : α → α → Prop} {a b : α} {between : List α}
    (h : (a :: between ++ [b]).IsChain R) : Relation.TransGen R a b := by
  induction between generalizing a with
  | nil =>
    rw [List.singleton_append, List.isChain_pair] at h
    exact .single h
  | cons c between ih =>
    rw [List.cons_append, List.cons_append, List.isChain_cons_cons] at h
    exact .head h.1 (ih h.2)

theorem IsCycle.exists_transGen {cycle : List Nat} (h : IsCycle edges cycle) :
    ∃ n, Relation.TransGen (fun a b => b ∈ edges a) n n := by
  obtain ⟨n, between, rfl, h⟩ := h
  exact ⟨n, transGen_of_isChain h⟩

/-! ### The path of a search -/

/-- The path is one of the graph, its last node first, and all active nodes are on it. -/
structure Search.Tracks (edges : Nat → List Nat) (s : Search) : Prop where
  path : s.path.IsChain fun b a => b ∈ edges a
  active : ∀ n, s.mark n = .active → n ∈ s.path

/-- An edge from the last node of the path to an active one closes a cycle. -/
theorem Search.Tracks.isCycle_cycleAt {path : List Nat} (hs : s.Tracks edges)
    (hpath : s.path = node :: path) (hnext : next ∈ edges node) (hactive : s.mark next = .active) :
    IsCycle edges (s.cycleAt next) := by
  refine ⟨next, _, rfl, ?_⟩
  obtain ⟨front, back, hsplit, hfirst⟩ := List.eq_append_cons_of_mem (hs.active next hactive)
  have hfront : s.path.takeWhile (· != next) = front := by
    rw [hsplit, List.takeWhile_append_of_pos, List.takeWhile_cons_of_neg, List.append_nil]
    · simp
    · intro n hn
      exact bne_iff_ne.mpr fun h => hfirst (h ▸ hn)
  -- Read backwards, the cycle is how the path begins, with the edge in front.
  have hchain : (next :: s.path).IsChain fun b a => b ∈ edges a := by
    rw [hpath, List.isChain_cons_cons]
    exact ⟨hnext, hpath ▸ hs.path⟩
  have hprefix : next :: front ++ [next] <+: next :: s.path := by
    rw [hsplit]
    exact ⟨back, by simp⟩
  have hreverse : s.cycleAt next = (next :: front ++ [next]).reverse := by
    rw [cycleAt, hfront]
    simp
  rw [hreverse, List.isChain_reverse]
  exact hchain.prefix hprefix

theorem Search.Tracks.enter {path : List Nat} (hs : s.Tracks edges) (hpath : s.path = node :: path)
    (hnext : next ∈ edges node) (hnew : s.mark next = .new) : (s.enter next).Tracks edges := by
  have hlt : next < s.marks.size := lt_of_new hnew
  constructor
  case path =>
    rw [Search.enter, hpath, List.isChain_cons_cons]
    exact ⟨hnext, hpath ▸ hs.path⟩
  case active =>
    intro n hn
    rw [mark_enter hlt] at hn
    rw [Search.enter, List.mem_cons]
    exact (em (n = next)).imp_right fun hne => hs.active n (by rwa [if_neg hne] at hn)

/-- A search that is further with the same path still tracks it. -/
theorem Search.Tracks.of_after (hs : s.Tracks edges) (hafter : s.After s')
    (hpath : s'.path = s.path) : s'.Tracks edges := by
  constructor
  case path => rw [hpath]; exact hs.path
  case active =>
    intro n hn
    rw [hpath]
    exact hs.active n (hafter.active n hn)

/-! ### Visits -/

/-- A part of the search comes back to the path that it began with, or ends with a cycle. -/
inductive Returns (edges : Nat → List Nat) (path : List Nat) : Except (List Nat) Search → Prop where
  | back {s : Search} (h : s.path = path) : Returns edges path (.ok s)
  | cycle {cycle : List Nat} (h : IsCycle edges cycle) : Returns edges path (.error cycle)

/-- Visits of at most `depth` new nodes come back. -/
def Tracked (edges : Nat → List Nat) (depth : Nat) : Prop :=
  ∀ ⦃node : Nat⦄ ⦃s : Search⦄, s.mark node = .new → s.newNodes.card ≤ depth →
    s.Explored edges → (s.enter node).Tracks edges → Returns edges s.path (visit edges depth node s)

theorem Tracked.follow {path : List Nat} (hvisit : Tracked edges depth)
    (hdepth : s.newNodes.card ≤ depth) (hexplored : s.Explored edges) (hs : s.Tracks edges)
    (hpath : s.path = node :: path) (hnext : next ∈ edges node) :
    Returns edges s.path (follow edges depth s next) := by
  rw [Digraph.follow]
  split
  next hactive => exact .cycle (hs.isCycle_cycleAt hpath hnext hactive)
  next hnew => exact hvisit hnew hdepth hexplored (hs.enter hpath hnext hnew)
  next => exact .back rfl

theorem Tracked.foldlM {path : List Nat} (hvisit : Tracked edges depth) (nexts : List Nat)
    (hdepth : s.newNodes.card ≤ depth) (hexplored : s.Explored edges) (hs : s.Tracks edges)
    (hpath : s.path = node :: path) (hnexts : ∀ next ∈ nexts, next ∈ edges node) :
    Returns edges s.path (nexts.foldlM (Digraph.follow edges depth) s) := by
  induction nexts generalizing s with
  | nil => exact .back rfl
  | cons next nexts ih =>
    rw [List.forall_mem_cons] at hnexts
    have hfollow := hvisit.follow hdepth hexplored hs hpath hnexts.1
    rw [List.foldlM_cons]
    cases hb : Digraph.follow edges depth s next with
    | error cycle =>
      rw [hb] at hfollow
      cases hfollow with
      | cycle hcycle => exact .cycle hcycle
    | ok b =>
      rw [hb] at hfollow
      cases hfollow with
      | back hback =>
        -- The search behind one successor goes on to the next one.
        obtain ⟨hexplored', hafter, -⟩ := (visit_ok edges depth).follow hdepth hexplored hb
        rw [← hback]
        exact ih (hafter.card_le.trans hdepth) hexplored' (hs.of_after hafter hback)
          (hback.trans hpath) hnexts.2

theorem visit_tracked (edges : Nat → List Nat) (depth : Nat) : Tracked edges depth := by
  induction depth with
  | zero =>
    intro node s hnew hdepth
    exact absurd hdepth (Nat.not_le_of_lt (Search.card_newNodes_pos hnew))
  | succ depth ih =>
    intro node s hnew hdepth hexplored hs
    have hlt : node < s.marks.size := Search.lt_of_new hnew
    have hcard := Search.card_newNodes_enter hnew
    have hfold := ih.foldlM (edges node) (by omega) (hexplored.enter hlt) hs rfl fun _ h => h
    rw [visit_succ]
    split
    next cycle hcycle =>
      rw [hcycle] at hfold
      cases hfold with
      | cycle h => exact .cycle h
    next b hb =>
      rw [hb] at hfold
      cases hfold with
      | back h =>
        refine .back ?_
        rw [Search.leave, h]
        rfl

/-! ### Searches from all nodes -/

theorem Passed.returns {k : Nat} (hs : Passed edges size k s) (hpath : s.path = []) :
    Returns edges [] (if s.mark k = .new then visit edges size k s else .ok s) := by
  split
  next hnew =>
    have hlt : k < s.marks.size := Search.lt_of_new hnew
    have htracks : (s.enter k).Tracks edges := by
      constructor
      case path =>
        rw [Search.enter, hpath]
        exact .singleton k
      case active =>
        intro n hn
        rw [Search.mark_enter hlt] at hn
        rw [Search.enter, List.mem_cons]
        exact (em (n = k)).imp_right fun hne =>
          absurd (by rwa [if_neg hne] at hn) (hs.inactive n)
    rw [← hpath]
    exact visit_tracked edges size hnew (hs.size ▸ s.card_newNodes_le) hs.explored htracks
  next => exact .back hpath

/-- What the search ends with is a cycle. -/
theorem isCycle_of_findCycle {cycle : List Nat} (h : findCycle edges size = some cycle)
    (hedges : ∀ n, size ≤ n → edges n = []) : IsCycle edges cycle := by
  rw [findCycle] at h
  split at h
  next found hfound =>
    obtain rfl := Option.some.inj h
    obtain ⟨k, -, s, hs, hk⟩ := exists_of_foldlM_error hfound
    -- Between the visits all that was entered is left again.
    have hpassed : Passed edges size k s ∧ s.path = [] :=
      foldlM_ok_induction hs (P := fun k s => Passed edges size k s ∧ s.path = [])
        ⟨.zero hedges, rfl⟩ fun k a b _ ha hab => by
          have hreturns := ha.1.returns ha.2
          rw [hab] at hreturns
          cases hreturns with
          | back hback => exact ⟨ha.1.succ hab, hback⟩
    have hreturns := hpassed.1.returns hpassed.2
    rw [hk] at hreturns
    cases hreturns with
    | cycle hcycle => exact hcycle
  next => cases h

/-- The search finds nothing exactly if no node is reached from itself. -/
theorem findCycle_eq_none_iff (hedges : ∀ n, size ≤ n → edges n = []) :
    findCycle edges size = none ↔ ∀ n, ¬ Relation.TransGen (fun a b => b ∈ edges a) n n := by
  constructor
  · intro h n hcycle
    have hacc := (acc_of_findCycle h hedges n).transGen
    have hloop : Relation.TransGen (fun a b => a ∈ edges b) n n := Relation.transGen_swap.mp hcycle
    clear hcycle
    induction hacc with
    | intro n _ ih => exact ih n hloop hloop
  · intro h
    cases hcycle : findCycle edges size with
    | none => rfl
    | some cycle =>
      obtain ⟨n, hn⟩ := (isCycle_of_findCycle hcycle hedges).exists_transGen
      exact absurd hn (h n)

end Scannerless.Digraph
