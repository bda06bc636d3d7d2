/-!
# Cycles of directed graphs

A graph is given by the list of successors of each node below a number. The
search goes through the nodes depth first and stops at the first edge that
leads back to a node of the path that it is on.

## Main definitions

- `Digraph.findCycle` — a cycle of a graph, if it has one.
-/

namespace Scannerless.Digraph

/-- What the search knows of a node. -/
inductive Mark where
  | new
  /-- On the current path. -/
  | active
  /-- Left again: no cycle goes through it. -/
  | done
  deriving DecidableEq, Repr

/-- The marks of the nodes, and the current path with its last node first. -/
structure Search where
  marks : Array Mark
  path : List Nat

/-- The mark of a node; a node outside of the graph has no edges. -/
def Search.mark (s : Search) (node : Nat) : Mark :=
  s.marks.getD node .done

def Search.enter (s : Search) (node : Nat) : Search :=
  ⟨s.marks.setIfInBounds node .active, node :: s.path⟩

def Search.leave (s : Search) (node : Nat) : Search :=
  ⟨s.marks.setIfInBounds node .done, s.path.tail⟩

/-- The part of the path from a node on, closed by that node. -/
def Search.cycleAt (s : Search) (node : Nat) : List Nat :=
  node :: (s.path.takeWhile (· != node)).reverse ++ [node]

/-- Searches from a node that is new, at most `depth` nodes deep. The search
    ends early with a cycle. -/
def visit (edges : Nat → List Nat) : (depth : Nat) → Nat → Search → Except (List Nat) Search
  | 0, _, s => .ok s
  | depth + 1, node, s =>
    let follow (s : Search) (next : Nat) : Except (List Nat) Search :=
      match s.mark next with
      | .active => .error (s.cycleAt next)
      | .new => visit edges depth next s
      | .done => .ok s
    match (edges node).foldlM follow (s.enter node) with
    | .error cycle => .error cycle
    | .ok s => .ok (s.leave node)

/-- Searches from each node that is still new. -/
def visitAll (edges : Nat → List Nat) (size : Nat) : Except (List Nat) Search :=
  (List.range size).foldlM
    (fun s node => if s.mark node = .new then visit edges size node s else .ok s)
    ⟨Array.replicate size .new, []⟩

/-- A cycle of the graph of the nodes below `size`, its first node repeated at
    the end. -/
def findCycle (edges : Nat → List Nat) (size : Nat) : Option (List Nat) :=
  match visitAll edges size with
  | .error cycle => some cycle
  | .ok _ => none

end Scannerless.Digraph
