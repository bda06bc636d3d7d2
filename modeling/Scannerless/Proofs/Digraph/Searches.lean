import Scannerless.Proofs.Digraph.Cycles

/-!
# Searches without a bound

A search goes as deep as the graph leads it. It comes to an end since each level enters a node
that was new. The search with a bound on its depth, which is as deep as there are nodes, comes
to the same.

## Main definitions

- `Digraph.Follows` — the search through successors, however deep it goes.
- `Digraph.Suffices` — a depth that visits of so many new nodes do not exceed.

## Main statements

- `Digraph.follows_iff` — the search from all nodes has one outcome, which is that of the search
  with a bound.
- `Digraph.findCycle_eq_some_iff` — the cycle that is found is the one that this search ends with.
-/

namespace Scannerless.Digraph

variable {edges : Nat → List Nat} {size depth : Nat} {s s' : Search} {nexts : List Nat}
  {r r' : Except (List Nat) Search}

/-- The search through the successors of a node on the path, one after the other. An active one
    closes a cycle, a new one is entered and left again behind its own successors unless there is
    a cycle, and one that is done is passed over. The search from all nodes is one through the
    successors of no node, between which none is active. -/
inductive Follows (edges : Nat → List Nat) :
    List Nat → Search → Except (List Nat) Search → Prop where
  | nil (s : Search) : Follows edges [] s (.ok s)
  | closed {s : Search} {next : Nat} (hactive : s.mark next = .active) (nexts : List Nat) :
      Follows edges (next :: nexts) s (.error (s.cycleAt next))
  | found {s : Search} {next : Nat} {cycle : List Nat} (hnew : s.mark next = .new)
      (h : Follows edges (edges next) (s.enter next) (.error cycle)) (nexts : List Nat) :
      Follows edges (next :: nexts) s (.error cycle)
  | left {s s' : Search} {next : Nat} {nexts : List Nat} {r : Except (List Nat) Search}
      (hnew : s.mark next = .new) (h : Follows edges (edges next) (s.enter next) (.ok s'))
      (hrest : Follows edges nexts (s'.leave next) r) : Follows edges (next :: nexts) s r
  | passed {s : Search} {next : Nat} {nexts : List Nat} {r : Except (List Nat) Search}
      (hdone : s.mark next = .done) (hrest : Follows edges nexts s r) :
      Follows edges (next :: nexts) s r

/-- A search has one outcome. -/
theorem Follows.unique (h : Follows edges nexts s r) (h' : Follows edges nexts s r') : r = r' := by
  induction h generalizing r' with
  | nil =>
    cases h'
    rfl
  | closed hactive =>
    cases h' with
    | closed => rfl
    | found hnew | left hnew => cases hactive.symm.trans hnew
    | passed hdone => cases hactive.symm.trans hdone
  | found hnew _ _ ih =>
    cases h' with
    | closed hactive => cases hactive.symm.trans hnew
    | found _ h => exact ih h
    | left _ h => cases ih h
    | passed hdone => cases hdone.symm.trans hnew
  | left hnew _ _ ih ih' =>
    cases h' with
    | closed hactive => cases hactive.symm.trans hnew
    | found _ h => cases ih h
    | left _ h hrest =>
      obtain rfl := Except.ok.inj (ih h)
      exact ih' hrest
    | passed hdone => cases hdone.symm.trans hnew
  | passed hdone _ ih =>
    cases h' with
    | closed hactive => cases hactive.symm.trans hdone
    | found hnew | left hnew => cases hdone.symm.trans hnew
    | passed _ hrest => exact ih hrest

/-- A search without a cycle is further when it comes back. -/
theorem Follows.after (h : Follows edges nexts s r) (hr : r = .ok s') : s.After s' := by
  induction h generalizing s' with
  | nil s =>
    obtain rfl := Except.ok.inj hr
    exact .refl s
  | closed | found => cases hr
  | left hnew _ _ ih ih' =>
    have hlt := Search.lt_of_new hnew
    exact (Search.After.leave hlt (ih rfl)).trans (ih' hr)
  | passed _ _ ih => exact ih hr

/-! ### A depth that is enough -/

/-- Visits of at most `depth` new nodes are those of the search without a bound. -/
def Suffices (edges : Nat → List Nat) (depth : Nat) : Prop :=
  ∀ ⦃node : Nat⦄ ⦃s : Search⦄, s.mark node = .new → s.newNodes.card ≤ depth →
    ∃ r, Follows edges (edges node) (s.enter node) r ∧
      visit edges depth node s = r.map fun s => s.leave node

theorem Suffices.follows (hvisit : Suffices edges depth) (nexts : List Nat)
    (hdepth : s.newNodes.card ≤ depth) :
    Follows edges nexts s (nexts.foldlM (follow edges depth) s) := by
  induction nexts generalizing s with
  | nil => exact .nil s
  | cons next nexts ih =>
    rw [List.foldlM_cons]
    cases hmark : s.mark next with
    | active =>
      have hstep : follow edges depth s next = .error (s.cycleAt next) := by
        rw [follow, hmark]
      rw [hstep]
      exact .closed hmark nexts
    | done =>
      have hstep : follow edges depth s next = .ok s := by
        rw [follow, hmark]
      rw [hstep]
      exact .passed hmark (ih hdepth)
    | new =>
      obtain ⟨r, hfollows, hr⟩ := hvisit hmark hdepth
      have hstep : follow edges depth s next = r.map fun s => s.leave next := by
        rw [follow, hmark]
        exact hr
      rw [hstep]
      cases r with
      | error cycle => exact .found hmark hfollows nexts
      | ok s' =>
        -- What is left of the search has no more new nodes.
        have hafter := Search.After.leave (Search.lt_of_new hmark) (hfollows.after rfl)
        exact .left hmark hfollows (ih (hafter.card_le.trans hdepth))

/-- Each level of the search enters a new node. -/
theorem visit_suffices (edges : Nat → List Nat) (depth : Nat) : Suffices edges depth := by
  induction depth with
  | zero =>
    intro node s hnew hdepth
    exact absurd hdepth (Nat.not_le_of_lt (Search.card_newNodes_pos hnew))
  | succ depth ih =>
    intro node s hnew hdepth
    have hcard := Search.card_newNodes_enter hnew
    refine ⟨_, ih.follows (edges node) (by omega), ?_⟩
    rw [visit_succ]
    cases (edges node).foldlM (follow edges depth) (s.enter node) <;> rfl

/-! ### Searches from all nodes -/

/-- Where no node is active, going to those that are new is to follow them. -/
theorem foldlM_visit_eq (hinactive : ∀ n, s.mark n ≠ .active) (hdepth : s.newNodes.card ≤ depth)
    (nodes : List Nat) :
    nodes.foldlM (fun s node => if s.mark node = .new then visit edges depth node s else .ok s) s =
      nodes.foldlM (follow edges depth) s := by
  induction nodes generalizing s with
  | nil => rfl
  | cons node nodes ih =>
    have hstep : (if s.mark node = .new then visit edges depth node s else .ok s) =
        follow edges depth s node := by
      rw [follow]
      cases hmark : s.mark node with
      | new => rw [if_pos rfl]
      | active => exact absurd hmark (hinactive node)
      | done => rw [if_neg (by decide)]
    rw [List.foldlM_cons, List.foldlM_cons, hstep]
    cases hb : follow edges depth s node with
    | error cycle => rfl
    | ok b =>
      have hfollows := (visit_suffices edges depth).follows [node] hdepth
      rw [List.foldlM_cons, hb] at hfollows
      have hafter := hfollows.after rfl
      exact ih (fun n hn => hinactive n (hafter.active n hn)) (hafter.card_le.trans hdepth)

/-- The search from all nodes comes to an end, and to what the search with a bound comes to. -/
theorem follows_iff (edges : Nat → List Nat) (size : Nat) :
    Follows edges (List.range size) ⟨Array.replicate size .new, []⟩ r ↔
      r = visitAll edges size := by
  have hinactive : ∀ n, (Search.mk (Array.replicate size .new) []).mark n ≠ .active := by
    intro n
    by_cases hn : n < size <;> simp [Search.mark, hn]
  have hcard : (Search.mk (Array.replicate size .new) []).newNodes.card ≤ size := by
    have hle := Search.card_newNodes_le (Search.mk (Array.replicate size .new) [])
    rwa [Array.size_replicate] at hle
  have hfollows := (visit_suffices edges size).follows (List.range size) hcard
  rw [← foldlM_visit_eq hinactive hcard, ← visitAll] at hfollows
  constructor
  · exact fun h => h.unique hfollows
  · rintro rfl
    exact hfollows

/-- The cycle that is found is what the search ends with. -/
theorem findCycle_eq_some_iff {cycle : List Nat} :
    findCycle edges size = some cycle ↔
      Follows edges (List.range size) ⟨Array.replicate size .new, []⟩ (.error cycle) := by
  rw [follows_iff, findCycle]
  cases visitAll edges size with
  | error found => simp [eq_comm]
  | ok s => simp

/-! ### Lists of successors -/

theorem successors_of_le {adjacency : Array (List Nat)} {n : Nat} (h : adjacency.size ≤ n) :
    successors adjacency n = [] := by
  rw [successors, Array.getD_eq_getD_getElem?, Array.getElem?_eq_none h]
  rfl

theorem IsCycle.bounds {cycle : List Nat} (h : IsCycle edges cycle) :
    2 ≤ cycle.length ∧ cycle.head? = cycle.getLast? ∧ cycle.IsChain fun a b => b ∈ edges a := by
  obtain ⟨node, between, rfl, hchain⟩ := h
  refine ⟨by simp, ?_, hchain⟩
  rw [List.getLast?_concat]
  rfl

/-- The search for a cycle in a graph that is given by lists of successors comes to an end, and
    what it finds is a cycle if there is one. -/
theorem findCycle_successors (adjacency : Array (List Nat)) :
    (∃ r, (∀ r', Follows (successors adjacency) (List.range adjacency.size)
        ⟨Array.replicate adjacency.size .new, []⟩ r' ↔ r' = r) ∧
      ∀ cycle, findCycle (successors adjacency) adjacency.size = some cycle ↔ r = .error cycle) ∧
    (findCycle (successors adjacency) adjacency.size = none ↔
      ∀ n, ¬Relation.TransGen (fun a b => b ∈ successors adjacency a) n n) ∧
    ∀ cycle, findCycle (successors adjacency) adjacency.size = some cycle →
      2 ≤ cycle.length ∧ cycle.head? = cycle.getLast? ∧
        cycle.IsChain fun a b => b ∈ successors adjacency a := by
  refine ⟨⟨_, fun r' => follows_iff _ _, fun cycle => ?_⟩,
    findCycle_eq_none_iff fun _ => successors_of_le, fun cycle hcycle => ?_⟩
  · rw [findCycle_eq_some_iff, follows_iff, eq_comm]
  · exact (isCycle_of_findCycle hcycle fun _ => successors_of_le).bounds

end Scannerless.Digraph
