import DepGraph.Cycle.Basic
import DepGraph.Text.Quoted

/-!
# Errors of a graph

What can go wrong with a dependency graph, and how each failure is worded. The code is stable
and short, the summary says what the code means, the hint what to do about it.
-/

namespace DepGraph

inductive GraphError (E : Type) where
  | duplicateLink (entity dependency : E)
  | duplicateEntity (entity : E)
  | frozen
  | cycleDetected (cycle : Cycle E)
  | selfLoop (entity : E)
  | illegalCluster (members rejected : List E)
  | incompleteRanking (component ranked total : Nat)
  deriving DecidableEq, Repr

namespace GraphError

variable {E : Type}

def code : GraphError E → String
  | .duplicateLink .. => "G1001"
  | .duplicateEntity .. => "G1002"
  | .frozen => "G1003"
  | .cycleDetected .. => "G2001"
  | .selfLoop .. => "G2002"
  | .illegalCluster .. => "G2003"
  | .incompleteRanking .. => "G9001"

def summary : GraphError E → String
  | .duplicateLink .. => "Dependency link registered twice"
  | .duplicateEntity .. => "Entity declared twice"
  | .frozen => "Graph mutated after build"
  | .cycleDetected .. => "Dependency cycle detected"
  | .selfLoop .. => "Entity depends on itself"
  | .illegalCluster .. => "Cluster contains members that cannot be mutually dependent"
  | .incompleteRanking .. => "Ranking left entities unranked"

def hint : GraphError E → Option String
  | .duplicateLink .. => some "De-duplicate dependency lists before adding entities."
  | .duplicateEntity .. => some "Add each entity exactly once with its full dependency list."
  | .frozen => some "Add all entities before calling build."
  | .cycleDetected .. => some "Remove one of the listed dependencies to break the cycle."
  | .selfLoop .. => some "Remove the dependency of the entity on itself."
  | .illegalCluster .. => none
  | .incompleteRanking .. =>
    some "This is a bug in the resolver. Report it with the input graph."

def isInternal : GraphError E → Bool
  | .incompleteRanking .. => true
  | _ => false

def cycle? : GraphError E → Option (Cycle E)
  | .cycleDetected c => some c
  | _ => none

def message [Label E] : GraphError E → String
  | .duplicateLink e d =>
    "duplicate dependency link: " ++ Label.quoted e ++ " -> " ++ Label.quoted d
  | .duplicateEntity e => "entity " ++ Label.quoted e ++ " declared more than once"
  | .frozen => "graph is frozen: mutation after build"
  | .cycleDetected c => "dependency cycle detected: " ++ Label.quotedList c.entities
  | .selfLoop e => "entity " ++ Label.quoted e ++ " depends on itself"
  | .illegalCluster members rejected =>
    "cluster " ++ Label.quotedList members ++
      " has members that cannot be mutually dependent: " ++ Label.quotedList rejected
  | .incompleteRanking component ranked total =>
    s!"incomplete ranking in component c{component}: ranked {ranked} of {total}"

end GraphError

end DepGraph
