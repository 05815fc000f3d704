import DepGraph.Prune
import DepGraph.Report.Style

/-!
# The report of a pruning

The report of a pruning: by which strategy, for which public entities, and what it found.
-/

namespace DepGraph

inductive Strategy where
  | byComponent
  | byReach
  deriving DecidableEq, Repr

def Strategy.name : Strategy → String
  | .byComponent => "private"
  | .byReach => "reachable"

namespace Prunable

def toValue (p : Prunable String) : Value :=
  .table [("entities", .texts p.entities), ("components", .list (p.components.map .nat))]

def report (p : Prunable String) (strategy : Strategy) (publics : List String) : Report where
  data := .table [("strategy", .text strategy.name), ("public", .texts publics),
    ("prunable", p.toValue)]
  text := p.entities
  pretty := [Report.keyed "Strategy" strategy.name,
      Report.keyed "Public" (", ".intercalate publics), ""] ++
    Report.headed s!"Prunable ({p.entities.length})" ++ p.entities.map ("  " ++ ·)

end Prunable

end DepGraph
