import DepGraph.Report.Style
import DepGraph.Resolution.Queries

/-!
# The report of a ranking

The report of a resolution: its cohorts, bottom up, with clusters and self loops.
-/

namespace DepGraph

namespace CohortEntry

def toValue : CohortEntry String → Value
  | .entity e => .table [("entity", .text e)]
  | .cluster members => .table [("cluster", .texts members)]

def label : CohortEntry String → String
  | .entity e => e
  | .cluster members => "\x7b" ++ ",".intercalate members ++ "\x7d"

def labels (cohort : List (CohortEntry String)) : String := " ".intercalate (cohort.map label)

end CohortEntry

def Stats.toValue (s : Stats) : Value :=
  .table [("nodes", .nat s.nodes), ("edges", .nat s.edges), ("components", .nat s.components),
    ("isolated", .nat s.isolated), ("clusters", .nat s.clusters), ("cohorts", .nat s.cohorts),
    ("self_loops", .nat s.selfLoops), ("max_component", .nat s.maxComponent)]

namespace Resolution

def toValue (r : Resolution String) : Value :=
  .table [("mode", .text r.options.mode.name), ("stats", r.stats.toValue),
    ("cohorts", .list (r.cohortEntries.map fun cohort => .list (cohort.map (·.toValue)))),
    ("clusters", .list (r.clusters.map Value.texts)), ("self_loops", .texts r.selfLoops)]

def toText (r : Resolution String) : List String :=
  r.cohortEntries.zipIdx.map fun (cohort, rank) => s!"{rank}\t" ++ CohortEntry.labels cohort

def toPretty (r : Resolution String) : List String :=
  let s := r.stats
  let cohorts := r.cohortEntries
  [Report.keyed "Mode" r.options.mode.name, Report.keyed "Entities" (toString s.nodes),
    Report.keyed "Edges" (toString s.edges),
    Report.keyed "Components" s!"{s.components} (+{s.isolated} isolated)", ""] ++
  Report.headed s!"Cohorts ({cohorts.length})" ++
  (cohorts.zipIdx.map fun (cohort, rank) =>
    "  " ++ Report.column rank ++ "  " ++ CohortEntry.labels cohort) ++
  (if r.clusters.isEmpty then []
    else [""] ++ Report.headed s!"Clusters ({r.clusters.length})" ++
      r.clusters.map fun members => "  " ++ ", ".intercalate members) ++
  (if r.selfLoops.isEmpty then []
    else [""] ++ Report.headed "Self loops" ++ r.selfLoops.map ("  " ++ ·))

def report (r : Resolution String) : Report := ⟨r.toValue, r.toText, r.toPretty⟩

end Resolution

end DepGraph
