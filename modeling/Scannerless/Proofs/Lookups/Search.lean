import Scannerless.Proofs.Digraph

/-!
# What the search for cycles looks up is there

The search for a cycle goes by two tables that are indexed by the nodes of the graph: the marks of
the nodes and their successors. If all successors are nodes again, each lookup in them finds
something, and the search is never deeper than there are nodes.

## Main definitions

- `Digraph.visit?`, `Digraph.findCycle?` — the search with its lookups.

## Main statements

- `Digraph.visit?_eq` — a visit looks up what is there.
- `Digraph.findCycle?_eq` — the search comes to what it comes to without lookups.
-/

namespace Scannerless.Digraph

open Search

/-! ### The search with its lookups -/

def Search.enter? (s : Search) (node : Nat) : Option Search :=
  if node < s.marks.size then some (s.enter node) else none

def Search.leave? (s : Search) (node : Nat) : Option Search :=
  if node < s.marks.size then some (s.leave node) else none

/-- Visits a node of a graph that is given by the successors of its nodes. Neither a mark nor
    successors need be there, and the search may be too deep. -/
def visit? (edges : Array (List Nat)) :
    (depth : Nat) → Nat → Search → ExceptT (List Nat) Option Search
  | 0, _, _ => ExceptT.lift none
  | depth + 1, node, s => do
    let s ← ExceptT.lift (s.enter? node)
    let nexts ← ExceptT.lift edges[node]?
    let follow (s : Search) (next : Nat) : ExceptT (List Nat) Option Search := do
      match ← ExceptT.lift s.marks[next]? with
      | .active => throw (s.cycleAt next)
      | .new => visit? edges depth next s
      | .done => return s
    let s ← nexts.foldlM follow s
    ExceptT.lift (s.leave? node)

def visitFrom? (edges : Array (List Nat)) (s : Search) (node : Nat) :
    ExceptT (List Nat) Option Search := do
  let mark ← ExceptT.lift s.marks[node]?
  if mark = .new then visit? edges edges.size node s else return s

/-- Whether a graph has a cycle, unless a lookup finds nothing. -/
def findCycle? (edges : Array (List Nat)) : Option (Option (List Nat)) :=
  match ((List.range edges.size).foldlM (visitFrom? edges)
      ⟨Array.replicate edges.size .new, []⟩).run with
  | none => none
  | some (.error cycle) => some (some cycle)
  | some (.ok _) => some none

/-! ### Every lookup finds something -/

/-- A computation with lookups comes to what one without them comes to if both its parts do. -/
theorem run_bind_eq_some {ε α β : Type} {c : ExceptT ε Option α} {x : Except ε α}
    (hc : c.run = some x) {f : α → ExceptT ε Option β} {g : α → Except ε β}
    (hf : ∀ a, x = .ok a → (f a).run = some (g a)) : (c >>= f).run = some (x >>= g) := by
  rw [ExceptT.run_bind, hc]
  cases x with
  | error e => rfl
  | ok a => exact hf a rfl

theorem run_bind_eq_error {ε α β : Type} {c : ExceptT ε Option α} {e : ε}
    (hc : c.run = some (.error e)) (f : α → ExceptT ε Option β) :
    (c >>= f).run = some (.error e) := by
  rw [ExceptT.run_bind, hc]
  rfl

theorem run_lift_bind {ε α β : Type} {x : Option α} {a : α} (hx : x = some a)
    (f : α → ExceptT ε Option β) : (ExceptT.lift x >>= f).run = (f a).run := by
  subst hx
  rfl

/-- A search within a graph: it has marks for the nodes, and its path consists of nodes. -/
structure Search.Inside (size : Nat) (s : Search) : Prop where
  marks : s.marks.size = size
  path : ∀ n ∈ s.path, n < size

/-- A search stays within a graph, or ends with a cycle in it. -/
def Stays (size : Nat) : Except (List Nat) Search → Prop
  | .ok s => s.Inside size
  | .error cycle => cycle ≠ [] ∧ ∀ n ∈ cycle, n < size

/-- All successors are nodes of the graph. -/
def Closed (edges : Array (List Nat)) : Prop :=
  ∀ node, ∀ n ∈ successors edges node, n < edges.size

variable {edges : Array (List Nat)} {size depth node : Nat} {s : Search}

theorem Search.Inside.enter (hs : s.Inside size) (hnode : node < size) :
    (s.enter node).Inside size :=
  ⟨Array.size_setIfInBounds.trans hs.marks, List.forall_mem_cons.mpr ⟨hnode, hs.path⟩⟩

theorem Search.Inside.leave (hs : s.Inside size) (node : Nat) : (s.leave node).Inside size :=
  ⟨Array.size_setIfInBounds.trans hs.marks, fun n hn => hs.path n (List.mem_of_mem_tail hn)⟩

theorem Search.Inside.cycleAt (hs : s.Inside size) (hnode : node < size) :
    s.cycleAt node ≠ [] ∧ ∀ n ∈ s.cycleAt node, n < size := by
  refine ⟨by simp [Search.cycleAt], fun n hn => ?_⟩
  rw [Search.cycleAt, List.mem_append, List.mem_cons, List.mem_reverse, List.mem_singleton] at hn
  obtain (rfl | hn) | rfl := hn
  · exact hnode
  · exact hs.path n ((List.takeWhile_sublist _).mem hn)
  · exact hnode

theorem enter?_eq (h : node < s.marks.size) : s.enter? node = some (s.enter node) :=
  if_pos h

theorem leave?_eq (h : node < s.marks.size) : s.leave? node = some (s.leave node) :=
  if_pos h

theorem getElem?_marks (hs : s.Inside size) (hnode : node < size) :
    s.marks[node]? = some (s.mark node) := by
  have hlt : node < s.marks.size := by rw [hs.marks]; exact hnode
  rw [mark, Array.getD_eq_getD_getElem?, Array.getElem?_eq_getElem hlt, Option.getD_some]

theorem getElem?_edges (hnode : node < edges.size) :
    edges[node]? = some (successors edges node) := by
  rw [successors, Array.getD_eq_getD_getElem?, Array.getElem?_eq_getElem hnode, Option.getD_some]

/-- Visits at some depth look up what is there and stay within the graph. -/
def Finds (edges : Array (List Nat)) (depth : Nat) : Prop :=
  ∀ ⦃node : Nat⦄ ⦃s : Search⦄, s.mark node = .new → s.newNodes.card ≤ depth →
    s.Inside edges.size → s.Explored (successors edges) →
    (visit? edges depth node s).run = some (visit (successors edges) depth node s) ∧
      Stays edges.size (visit (successors edges) depth node s)

/-- The part of a visit with lookups that goes on to a successor. -/
def follow? (edges : Array (List Nat)) (depth : Nat) (s : Search) (next : Nat) :
    ExceptT (List Nat) Option Search := do
  match ← ExceptT.lift s.marks[next]? with
  | .active => throw (s.cycleAt next)
  | .new => visit? edges depth next s
  | .done => return s

theorem visit?_succ (edges : Array (List Nat)) (depth node : Nat) (s : Search) :
    visit? edges (depth + 1) node s = (do
      let s ← ExceptT.lift (s.enter? node)
      let nexts ← ExceptT.lift edges[node]?
      let s ← nexts.foldlM (follow? edges depth) s
      ExceptT.lift (s.leave? node)) :=
  rfl

theorem Finds.follow (hfinds : Finds edges depth) (hnode : node < edges.size)
    (hdepth : s.newNodes.card ≤ depth) (hs : s.Inside edges.size)
    (hexplored : s.Explored (successors edges)) :
    (follow? edges depth s node).run = some (follow (successors edges) depth s node) ∧
      Stays edges.size (follow (successors edges) depth s node) := by
  rw [follow?, run_lift_bind (getElem?_marks hs hnode), Digraph.follow]
  cases hmark : s.mark node with
  | active => exact ⟨rfl, hs.cycleAt hnode⟩
  | new => exact hfinds hmark hdepth hs hexplored
  | done => exact ⟨rfl, hs⟩

theorem Finds.foldlM (hfinds : Finds edges depth) {nexts : List Nat}
    (hnexts : ∀ n ∈ nexts, n < edges.size) (hdepth : s.newNodes.card ≤ depth)
    (hs : s.Inside edges.size) (hexplored : s.Explored (successors edges)) :
    (nexts.foldlM (follow? edges depth) s).run =
        some (nexts.foldlM (Digraph.follow (successors edges) depth) s) ∧
      Stays edges.size (nexts.foldlM (Digraph.follow (successors edges) depth) s) := by
  induction nexts generalizing s with
  | nil => exact ⟨rfl, hs⟩
  | cons next nexts ih =>
    rw [List.forall_mem_cons] at hnexts
    obtain ⟨hrun, hstays⟩ := hfinds.follow hnexts.1 hdepth hs hexplored
    rw [List.foldlM_cons, List.foldlM_cons]
    cases hfollow : Digraph.follow (successors edges) depth s next with
    | error cycle =>
      rw [hfollow] at hrun hstays
      exact ⟨run_bind_eq_error hrun _, hstays⟩
    | ok s' =>
      rw [hfollow] at hrun hstays
      obtain ⟨hexplored', hafter, -⟩ :=
        (visit_ok (successors edges) depth).follow hdepth hexplored hfollow
      obtain ⟨hrun', hstays'⟩ := ih hnexts.2 (hafter.card_le.trans hdepth) hstays hexplored'
      refine ⟨run_bind_eq_some hrun fun a ha => ?_, hstays'⟩
      obtain rfl := Except.ok.inj ha
      exact hrun'

/-- A visit looks up what is there. Each level of the search enters a new node, so that it is
    never too deep. -/
theorem visit?_eq (hedges : Closed edges) (depth : Nat) : Finds edges depth := by
  induction depth with
  | zero =>
    intro node s hnew hdepth
    exact absurd hdepth (Nat.not_le_of_lt (card_newNodes_pos hnew))
  | succ depth ih =>
    intro node s hnew hdepth hs hexplored
    have hlt : node < s.marks.size := lt_of_new hnew
    have hnode : node < edges.size := hs.marks ▸ hlt
    have hcard := card_newNodes_enter hnew
    obtain ⟨hrun, hstays⟩ := ih.foldlM (hedges node) (by omega) (hs.enter hnode)
      (hexplored.enter hlt)
    rw [visit?_succ, visit_succ, run_lift_bind (enter?_eq hlt),
      run_lift_bind (getElem?_edges hnode)]
    cases hfold : (successors edges node).foldlM (Digraph.follow (successors edges) depth)
        (s.enter node) with
    | error cycle =>
      rw [hfold] at hrun hstays
      exact ⟨run_bind_eq_error hrun _, hstays⟩
    | ok s' =>
      rw [hfold] at hrun hstays
      have hlt' : node < s'.marks.size := by rw [hstays.marks]; exact hnode
      refine ⟨run_bind_eq_some (g := fun s => .ok (s.leave node)) hrun fun a ha => ?_,
        hstays.leave node⟩
      obtain rfl := Except.ok.inj ha
      rw [leave?_eq hlt']
      rfl

/-! ### Searches from all nodes -/

/-- The part of a search from all nodes that goes on from one of them. -/
def visitFrom (edges : Array (List Nat)) (s : Search) (node : Nat) : Except (List Nat) Search :=
  if s.mark node = .new then visit (successors edges) edges.size node s else .ok s

theorem visitFrom?_eq (hedges : Closed edges) {k : Nat} (hk : k < edges.size)
    (hs : s.Inside edges.size) (hpassed : Passed (successors edges) edges.size k s) :
    (visitFrom? edges s k).run = some (visitFrom edges s k) ∧
      Stays edges.size (visitFrom edges s k) := by
  rw [visitFrom?, run_lift_bind (getElem?_marks hs hk), visitFrom]
  by_cases hnew : s.mark k = .new
  · rw [if_pos hnew, if_pos hnew]
    have hcard : s.newNodes.card ≤ edges.size := hpassed.size ▸ s.card_newNodes_le
    exact visit?_eq hedges edges.size hnew hcard hs hpassed.explored
  · rw [if_neg hnew, if_neg hnew]
    exact ⟨rfl, hs⟩

/-- A search from the nodes below a number looks up what is there and passes all of them. -/
theorem foldlM_visitFrom? (hedges : Closed edges) {k : Nat} (hk : k ≤ edges.size) :
    let initial : Search := ⟨Array.replicate edges.size .new, []⟩
    ((List.range k).foldlM (visitFrom? edges) initial).run =
        some ((List.range k).foldlM (visitFrom edges) initial) ∧
      Stays edges.size ((List.range k).foldlM (visitFrom edges) initial) ∧
      ∀ s, (List.range k).foldlM (visitFrom edges) initial = .ok s →
        Passed (successors edges) edges.size k s := by
  intro initial
  induction k with
  | zero =>
    refine ⟨rfl, ⟨Array.size_replicate, List.forall_mem_nil _⟩, fun s hs => ?_⟩
    obtain rfl := Except.ok.inj hs
    refine .zero fun n hn => ?_
    rw [successors, Array.getD_eq_getD_getElem?, Array.getElem?_eq_none hn]
    rfl
  | succ k ih =>
    obtain ⟨hrun, hstays, hpassed⟩ := ih (Nat.le_of_succ_le hk)
    rw [List.range_succ, List.foldlM_append, List.foldlM_append]
    cases hfold : (List.range k).foldlM (visitFrom edges) initial with
    | error cycle =>
      rw [hfold] at hrun hstays
      exact ⟨run_bind_eq_error hrun _, hstays, nofun⟩
    | ok s =>
      rw [hfold] at hrun hstays
      have hpassed := hpassed s hfold
      obtain ⟨hrun', hstays'⟩ := visitFrom?_eq hedges hk hstays hpassed
      have hlast (s' : Search) : [k].foldlM (visitFrom edges) s' = visitFrom edges s' k :=
        bind_pure _
      have hlast? (s' : Search) : [k].foldlM (visitFrom? edges) s' = visitFrom? edges s' k :=
        bind_pure _
      have hnext : Except.ok s >>= [k].foldlM (visitFrom edges) = visitFrom edges s k := hlast s
      refine ⟨run_bind_eq_some hrun fun a ha => ?_, ?_, fun s' hs' => ?_⟩
      · obtain rfl := Except.ok.inj ha
        rw [hlast, hlast?]
        exact hrun'
      · rw [hnext]
        exact hstays'
      · rw [hnext] at hs'
        exact hpassed.succ hs'

/-- The search for a cycle looks up what is there, and the cycle that it finds consists of nodes. -/
theorem findCycle?_eq (hedges : Closed edges) :
    findCycle? edges = some (findCycle (successors edges) edges.size) ∧
      ∀ cycle, findCycle (successors edges) edges.size = some cycle →
        cycle ≠ [] ∧ ∀ n ∈ cycle, n < edges.size := by
  obtain ⟨hrun, hstays, -⟩ := foldlM_visitFrom? hedges (Nat.le_refl _)
  have hall : visitAll (successors edges) edges.size =
      (List.range edges.size).foldlM (visitFrom edges) ⟨Array.replicate edges.size .new, []⟩ :=
    rfl
  rw [findCycle?, hrun, findCycle, hall]
  cases hfold : (List.range edges.size).foldlM (visitFrom edges)
      ⟨Array.replicate edges.size .new, []⟩ with
  | error cycle =>
    rw [hfold] at hstays
    refine ⟨rfl, fun c hc => ?_⟩
    obtain rfl := Option.some_inj.mp hc
    exact hstays
  | ok s => exact ⟨rfl, fun c hc => absurd hc (Option.some_ne_none c).symm⟩

end Scannerless.Digraph
