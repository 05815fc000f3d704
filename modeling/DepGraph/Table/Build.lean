import DepGraph.Table.Basic

/-!
# Building a table

Building a table: self references are dropped and flagged, the reverse links and the undirected
view are derived, and the table is frozen.
-/

namespace DepGraph

def mergeUnion : List Nat → List Nat → List Nat
  | [], ys => ys
  | xs, [] => xs
  | x :: xs, y :: ys =>
    if x < y then x :: mergeUnion xs (y :: ys)
    else if y < x then y :: mergeUnion (x :: xs) ys
    else x :: mergeUnion xs ys
termination_by xs ys => xs.length + ys.length

namespace Table

variable {E : Type} [Entity E]

def dropSelf (id : NodeId) (n : Node E) : Node E :=
  { n with ancestors := n.ancestors.erase id, selfLoop := n.ancestors.contains id }

/-- All links, as dependent and dependency, by dependent and then by dependency. -/
def linksOf (nodes : Array (Node E)) : List (NodeId × NodeId) :=
  nodes.toList.zipIdx.flatMap fun (n, id) => n.ancestors.map (id, ·)

/-- For each node the dependents that `links` names for it, in the order of `links`. -/
def dependents (size : Nat) (links : List (NodeId × NodeId)) : Array (List NodeId) :=
  links.foldr (fun (d, a) lists => lists.modify a (d :: ·)) (Array.replicate size [])

def withDescendants (n : Node E) (descendants : List NodeId) : Node E :=
  { n with descendants, adjacency := mergeUnion n.ancestors descendants }

/-- Freezes a table; a table can be built once. -/
def build (t : Table E) : Except (GraphError E) Unit × Table E :=
  if t.frozen then (.error .frozen, t)
  else
    let nodes := t.nodes.mapIdx dropSelf
    let links := linksOf nodes
    (.ok (), { t with
      nodes := nodes.zipWith withDescendants (dependents nodes.size links)
      edgeCount := links.length
      frozen := true })

end Table

end DepGraph
