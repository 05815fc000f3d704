import DepGraph.Manifest.Sites
import DepGraph.Options
import DepGraph.Table.Build

/-!
# Manifests

A manifest: the entities of a graph with their dependencies, and how to resolve it.
-/

namespace DepGraph

structure Declaration where
  id : String
  deps : List String := []
  isPublic : Bool := false
  path : Option String := none
  sites : Sites := .empty
  deriving DecidableEq, Repr

structure Manifest where
  settings : Options := {}
  entities : List Declaration := []
  deriving DecidableEq, Repr

structure Invalid where
  id : String
  cause : GraphError String
  deriving DecidableEq, Repr

namespace Manifest

def addAll (t : Table String) : List Declaration → Except Invalid (Table String)
  | [] => .ok t
  | d :: ds =>
    match t.add d.id d.deps with
    | (.ok _, t) => addAll t ds
    | (.error cause, _) => .error ⟨d.id, cause⟩

def table (m : Manifest) : Except Invalid (Table String) := addAll {} m.entities

def publicIds (m : Manifest) : List String := (m.entities.filter (·.isPublic)).map (·.id)

/-- Where a dependency is written down: at its own site, else in the entity's file, else nowhere
better than the entity itself. -/
def siteOf (m : Manifest) (source target : String) : String :=
  match m.entities.find? (·.id == source) with
  | none => source
  | some d => ((d.sites.get? target).or d.path).getD source

end Manifest

end DepGraph
