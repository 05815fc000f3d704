import DepGraph.Cluster.Search
import DepGraph.Cohort.Ranker
import DepGraph.Component.Split
import DepGraph.Cycle.Search
import DepGraph.Options
import DepGraph.Table.Build

/-!
# Resolving a graph

Resolving a graph: build the table, refuse what the options refuse, split it, then find the
clusters of each component and rank it.
-/

namespace DepGraph

structure Resolution (E : Type) [Entity E] where
  table : Table E
  partition : Partition
  options : Options

namespace Resolution

variable {E : Type} [Entity E]

/-- Finds clusters and ranks component after component, with one finder and one ranker for all. -/
def settle (t : Table E) (f : Cluster.Finder) (r : Cohort.Ranker) :
    List Component → Except (GraphError E) (List Component)
  | [] => .ok []
  | c :: cs =>
    let (clusters, f) := f.find c t
    match r.rank (c.setClusters clusters) t with
    | (.error e, _, _) => .error e
    | (.ok (), c, r) =>
      match settle t f r cs with
      | .error e => .error e
      | .ok cs => .ok (c :: cs)

def refusal? (o : Options) (t : Table E) : Option (GraphError E) :=
  match o.rejectsSelfLoops, t.selfLoops with
  | true, e :: _ => some (.selfLoop e)
  | _, _ => if o.mode = .strictAcyclic then t.findCycle.map .cycleDetected else none

end Resolution

namespace Table

variable {E : Type} [Entity E]

def resolve (t : Table E) (o : Options) : Except (GraphError E) (Resolution E) :=
  match t.build with
  | (.error e, _) => .error e
  | (.ok (), t) =>
    match Resolution.refusal? o t with
    | some e => .error e
    | none =>
      let (p, t) := t.split
      match Resolution.settle t (Cluster.Finder.withCapacity p.maxSearchSize) {} p.components with
      | .error e => .error e
      | .ok components => .ok ⟨t, { p with components }, o⟩

end Table

end DepGraph
