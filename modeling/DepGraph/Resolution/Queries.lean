import DepGraph.Resolution.Basic

/-!
# Queries on a resolution

What a resolution tells: cohorts over the whole graph, clusters, ranks and counts. Components are
independent, so the cohort at a rank is the union of theirs, with isolated entities at rank zero.
-/

namespace DepGraph

inductive CohortEntry (E : Type) where
  | entity (e : E)
  | cluster (members : List E)
  deriving DecidableEq, Repr

namespace CohortEntry

variable {E : Type}

def head? : CohortEntry E → Option E
  | .entity e => some e
  | .cluster members => members.head?

def entities : CohortEntry E → List E
  | .entity e => [e]
  | .cluster members => members

end CohortEntry

structure Stats where
  nodes : Nat
  edges : Nat
  components : Nat
  isolated : Nat
  clusters : Nat
  cohorts : Nat
  selfLoops : Nat
  maxComponent : Nat
  deriving DecidableEq, Repr

namespace Resolution

variable {E : Type} [Entity E]

def components (r : Resolution E) : List Component := r.partition.components

def isolated (r : Resolution E) : List E := r.table.entities r.partition.isolated

def selfLoops (r : Resolution E) : List E := r.table.selfLoops

def depth (r : Resolution E) : Nat :=
  (r.components.map (·.cohorts.length)).foldl max (if r.partition.isolated.isEmpty then 0 else 1)

def entry? (r : Resolution E) (c : Component) : Rankee → Option (CohortEntry E)
  | .vertex v => (c.entity? r.table v).map .entity
  | .cluster k => (c.cluster? k).map fun k => .cluster (c.entities r.table k.members)

def entriesAt (r : Resolution E) (rank : Nat) : List (CohortEntry E) :=
  (if rank = 0 then r.isolated.map .entity else []) ++
    r.components.flatMap fun c => (c.cohorts.getD rank []).filterMap (r.entry? c)

def cohortEntries (r : Resolution E) : List (List (CohortEntry E)) :=
  (List.range r.depth).map fun rank => Entity.sortBy CohortEntry.head? (r.entriesAt rank)

def cohorts (r : Resolution E) : List (List E) :=
  r.cohortEntries.map fun cohort => Entity.sort (cohort.flatMap CohortEntry.entities)

def clusters (r : Resolution E) : List (List E) :=
  let found := r.components.flatMap fun c => c.clusters.map fun k => c.entities r.table k.members
  found.mergeSort fun a b => (compare a b).isLE

def componentOf? (r : Resolution E) (e : E) : Option CompId :=
  ((r.table.idOf? e).bind r.table.node?).bind (·.component)

/-- The rank of an entity; one outside every component is isolated and has rank zero. -/
def rankOf? (r : Resolution E) (e : E) : Option Nat := do
  let id ← r.table.idOf? e
  match (← r.table.node? id).component with
  | none => return 0
  | some comp =>
    let vert ← r.partition.vertOf? id
    let c ← r.partition.component? comp
    return (← c.vertex? vert).rank

def stats (r : Resolution E) : Stats where
  nodes := r.table.size
  edges := r.table.edgeCount
  components := r.components.length
  isolated := r.partition.isolated.length
  clusters := (r.components.flatMap (·.clusters)).length
  cohorts := r.depth
  selfLoops := r.selfLoops.length
  maxComponent := (r.components.map (·.size)).foldl max 0

/-- Whether every member of every cluster may be mutually dependent; if not, the first cluster with
members that may not, and those members. -/
def checkClusters (r : Resolution E) (admits : E → Bool) : Except (GraphError E) Unit :=
  let rejected (members : List E) := members.filter (!admits ·)
  match r.clusters.find? fun members => !(rejected members).isEmpty with
  | none => .ok ()
  | some members => .error (.illegalCluster members (rejected members))

end Resolution

end DepGraph
