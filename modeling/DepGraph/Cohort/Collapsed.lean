import DepGraph.Component.Basic

/-!
# Collapsed components

A component with each cluster drawn together into one group. Groups are the clusters in order,
then every vertex outside a cluster on its own; a group depends on what any of its members depends
on outside the group.
-/

namespace DepGraph

structure Group where
  rankee : Rankee
  members : List VertId
  deriving DecidableEq, Repr

structure Collapsed where
  groups : Array Group
  /-- For each group the groups that depend on it, ascending. -/
  descendants : Array (List Nat)
  deriving DecidableEq, Repr

namespace Collapsed

def size (c : Collapsed) : Nat := c.groups.size

def next (c : Collapsed) (g : Nat) : List Nat := c.descendants.getD g []

def groupsOf (c : Component) : List Group :=
  c.clusters.map (fun k => ⟨.cluster k.id, k.members⟩) ++
    (c.verts.toList.zipIdx.filter fun (vert, _) => vert.cluster.isNone).map
      fun (_, v) => ⟨.vertex v, [v]⟩

def positions (size : Nat) (groups : List Group) : Array (Option Nat) :=
  groups.zipIdx.foldl
    (fun marks (g, i) => g.members.foldl (fun marks v => marks.setIfInBounds v (some i)) marks)
    (Array.replicate size none)

def ofComponent (c : Component) : Collapsed :=
  let groups := groupsOf c
  let position := positions c.size groups
  let outside (group : Group × Nat) : List Nat :=
    ((group.1.members.flatMap c.descendants).filterMap fun d => (position[d]?).join).filter
      (· != group.2)
  { groups := groups.toArray
    descendants := (groups.zipIdx.map fun group => (outside group).mergeSort.eraseReps).toArray }

end Collapsed

end DepGraph
