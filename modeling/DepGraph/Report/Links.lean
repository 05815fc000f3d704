import DepGraph.Cycle.Basic
import DepGraph.Report.Style
import DepGraph.Text.Quoted

/-!
# The report of a cycle

The report of a search for a cycle: the links of the one found, or that there is none.
-/

namespace DepGraph

namespace Link

def toValue (l : Link String) : Value :=
  .table [("from", .text l.source), ("to", .text l.target), ("site", .text l.site)]

def toPretty (l : Link String) : List String :=
  ["  " ++ l.site, "      " ++ l.source ++ " imports " ++ l.target]

def report (links : List (Link String)) : Report where
  data := .table [("acyclic", .bool false),
    ("cycle", .table [("links", .list (links.map toValue))])]
  text := [renderAll links]
  pretty := [Report.keyed "Status" "cycle", ""] ++
    Report.headed s!"Links ({links.length})" ++ links.flatMap toPretty

def acyclicReport : Report where
  data := .table [("acyclic", .bool true), ("cycle", .null)]
  text := ["acyclic"]
  pretty := [Report.keyed "Status" "acyclic"]

end Link

end DepGraph
