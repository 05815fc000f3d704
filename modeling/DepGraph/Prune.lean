import DepGraph.Marks
import DepGraph.Resolution.Basic

/-!
# Pruning

Pruning: the entities nothing public needs. By components, a component is kept whole as soon as
one of its members is public. By reach, only what the roots depend on is kept.
-/

namespace DepGraph

structure Prunable (E : Type) where
  entities : List E := []
  components : List CompId := []
  deriving DecidableEq, Repr

def Prunable.contains {E : Type} [Entity E] (p : Prunable E) (e : E) : Bool :=
  Entity.seek e p.entities

namespace Resolution

variable {E : Type} [Entity E]

/-- Isolated entities that are not public, and all members of components without a public one. -/
def prune (r : Resolution E) (publics : List E) : Prunable E :=
  let keep (e : E) := Entity.among e publics
  let lone := (r.table.entities r.partition.isolated).filter (!keep ·)
  let dead := r.partition.components.filter fun c => !(r.table.entities c.nodes).any keep
  { entities := Entity.sort (lone ++ dead.flatMap fun c => r.table.entities c.nodes)
    components := dead.map (·.id) }

end Resolution

namespace Table

variable {E : Type} [Entity E]

/-- Marks whatever the marked nodes on the stack depend on. The node marked last is the next to be
looked at. -/
def reach (t : Table E) (stack : List NodeId) (marks : Array Bool) : Array Bool :=
  match stack with
  | [] => marks
  | id :: rest =>
    match _h : Marks.gather (t.ancestors id) marks with
    | (fresh, marks') => t.reach (fresh.reverse ++ rest) marks'
termination_by Marks.unmarked marks + stack.length
decreasing_by
  have hcount := Marks.gather_unmarked (t.ancestors id) marks
  simp [_h] at hcount
  simp
  omega

/-- The entities that none of the roots depends on, directly or not. Unknown roots are ignored. -/
def pruneUnreachable (t : Table E) (roots : List E) : Prunable E :=
  let (starts, marks) := Marks.gather (roots.filterMap t.idOf?) (Array.replicate t.size false)
  let reached := t.reach starts.reverse marks
  { entities := Entity.sort (t.entities (t.ids.filter fun id => !reached.getD id false)) }

end Table

end DepGraph
