import DepGraph.Error
import Std.Data.TreeMap

/-!
# The node table

The node table. Every entity a declaration mentions gets a node, numbered in the order of first
mention; all links between nodes are numbers. A table takes declarations until it is built, and is
frozen from then on. A declaration is checked before any of its entities gets a node.
-/

namespace DepGraph

abbrev NodeId := Nat

abbrev CompId := Nat

structure Node (E : Type) where
  entity : E
  /-- What the entity depends on, ascending. -/
  ancestors : List NodeId := []
  /-- What depends on the entity, ascending; known once the table is built. -/
  descendants : List NodeId := []
  adjacency : List NodeId := []
  component : Option CompId := none
  declared : Bool := false
  selfLoop : Bool := false
  isolated : Bool := false
  deriving DecidableEq, Repr

namespace Node

variable {E : Type}

def isRoot (n : Node E) : Bool := n.ancestors.isEmpty

def isPinnacle (n : Node E) : Bool := n.descendants.isEmpty

end Node

structure Table (E : Type) [Entity E] where
  nodes : Array (Node E) := #[]
  index : Std.TreeMap E NodeId := ∅
  edgeCount : Nat := 0
  frozen : Bool := false

namespace Table

variable {E : Type} [Entity E]

instance : Inhabited (Table E) := ⟨{}⟩

def size (t : Table E) : Nat := t.nodes.size

def isEmpty (t : Table E) : Bool := t.nodes.isEmpty

def ids (t : Table E) : List NodeId := List.range t.size

def node? (t : Table E) (id : NodeId) : Option (Node E) := t.nodes[id]?

def entity? (t : Table E) (id : NodeId) : Option E := (t.node? id).map (·.entity)

def idOf? (t : Table E) (e : E) : Option NodeId := t.index[e]?

def entities (t : Table E) (ids : List NodeId) : List E := ids.filterMap t.entity?

def ancestors (t : Table E) (id : NodeId) : List NodeId := ((t.node? id).map (·.ancestors)).getD []

def descendants (t : Table E) (id : NodeId) : List NodeId :=
  ((t.node? id).map (·.descendants)).getD []

def adjacency (t : Table E) (id : NodeId) : List NodeId := ((t.node? id).map (·.adjacency)).getD []

def isDeclared (t : Table E) (e : E) : Bool := ((t.idOf? e).bind t.node?).any (·.declared)

/-- Nodes without ancestors, as the lists stand: before the build a self reference counts. -/
def roots (t : Table E) : List NodeId := t.ids.filter fun id => (t.node? id).any (·.isRoot)

/-- Entities that were declared to depend on themselves, in node order; known after the build. -/
def selfLoops (t : Table E) : List E := (t.nodes.toList.filter (·.selfLoop)).map (·.entity)

def intern (t : Table E) (e : E) : NodeId × Table E :=
  match t.idOf? e with
  | some id => (id, t)
  | none =>
    (t.size,
      { t with nodes := t.nodes.push { entity := e }, index := t.index.insert e t.size })

def internAll (t : Table E) : List E → List NodeId × Table E
  | [] => ([], t)
  | e :: es =>
    let (id, t) := t.intern e
    let (ids, t) := t.internAll es
    (id :: ids, t)

def declare (t : Table E) (id : NodeId) (ancestors : List NodeId) : Table E :=
  { t with nodes := t.nodes.modify id ({ · with ancestors, declared := true }) }

/-- Adds a declaration and returns the node of its entity. An entity may be declared once, though
it may be mentioned before; a dependency may be listed once, though it may be the entity itself. -/
def add (t : Table E) (e : E) (deps : List E) : Except (GraphError E) NodeId × Table E :=
  if t.frozen then (.error .frozen, t)
  else if t.isDeclared e then (.error (.duplicateEntity e), t)
  else match Entity.repeated? deps with
    | some d => (.error (.duplicateLink e d), t)
    | none =>
      let (id, t) := t.intern e
      let (ids, t) := t.internAll deps
      (.ok id, t.declare id ids.mergeSort)

/-- Adds declarations in order, up to the first that is refused, and returns that refusal beside the
table as it then stands. -/
def addAll (t : Table E) : List (E × List E) → Table E × Option (GraphError E)
  | [] => (t, none)
  | (e, deps) :: rest =>
    match t.add e deps with
    | (.ok _, t) => t.addAll rest
    | (.error err, t) => (t, some err)

end Table

end DepGraph
