import DepGraph.Table.Basic

/-!
# Components

Connected components of a built table. Inside a component the nodes are renumbered densely, so
that the phases that work on one component see plain numbers below its size.
-/

namespace DepGraph

abbrev VertId := Nat

abbrev ClusterId := Nat

structure Vertex where
  node : NodeId
  ancestors : List VertId
  descendants : List VertId
  rank : Nat := 0
  cluster : Option ClusterId := none
  deriving DecidableEq, Repr

/-- Two or more vertices that all depend on each other, ascending by entity. -/
structure Cluster where
  id : ClusterId
  component : CompId
  members : List VertId
  deriving DecidableEq, Repr

def Cluster.head? (c : Cluster) : Option VertId := c.members.head?

inductive Rankee where
  | vertex (id : VertId)
  | cluster (id : ClusterId)
  deriving DecidableEq, Repr

structure Component where
  id : CompId
  verts : Array Vertex
  roots : List VertId
  pinnacles : List VertId
  clusters : List Cluster := []
  cohorts : List (List Rankee) := []
  deriving DecidableEq, Repr

namespace Component

def size (c : Component) : Nat := c.verts.size

def vertex? (c : Component) (v : VertId) : Option Vertex := c.verts[v]?

def cluster? (c : Component) (k : ClusterId) : Option Cluster := c.clusters[k]?

def nodes (c : Component) : List NodeId := c.verts.toList.map (·.node)

def ancestors (c : Component) (v : VertId) : List VertId :=
  ((c.vertex? v).map (·.ancestors)).getD []

def descendants (c : Component) (v : VertId) : List VertId :=
  ((c.vertex? v).map (·.descendants)).getD []

/-- A component in which every vertex is a root or a pinnacle: its links all lead from a root to a
pinnacle, so it has no cluster and two ranks. -/
def isTwoLevel (c : Component) : Bool := c.size == c.roots.length + c.pinnacles.length

def setClusters (c : Component) (clusters : List Cluster) : Component :=
  let mark (verts : Array Vertex) (k : Cluster) :=
    k.members.foldl (fun verts v => verts.modify v ({ · with cluster := some k.id })) verts
  { c with verts := clusters.foldl mark c.verts, clusters }

variable {E : Type} [Entity E]

def entity? (c : Component) (t : Table E) (v : VertId) : Option E :=
  (c.vertex? v).bind fun vert => t.entity? vert.node

def entities (c : Component) (t : Table E) (vs : List VertId) : List E :=
  vs.filterMap (c.entity? t)

/-- The entity a rankee is sorted by: its own, or that of the cluster's head. -/
def representative? (c : Component) (t : Table E) : Rankee → Option E
  | .vertex v => c.entity? t v
  | .cluster k => ((c.cluster? k).bind (·.head?)).bind (c.entity? t)

end Component

structure Partition where
  components : List Component := []
  isolated : List NodeId := []
  remap : Array (Option VertId) := #[]
  deriving DecidableEq, Repr

namespace Partition

def component? (p : Partition) (id : CompId) : Option Component := p.components[id]?

def vertOf? (p : Partition) (id : NodeId) : Option VertId := (p.remap[id]?).join

def maxSearchSize (p : Partition) : Nat :=
  ((p.components.filter (!·.isTwoLevel)).map (·.size)).foldl max 0

end Partition

end DepGraph
