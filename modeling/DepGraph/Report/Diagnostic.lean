import DepGraph.Manifest.Basic
import DepGraph.Report.Style

/-!
# Diagnostics

Reports of what went wrong.
-/

namespace DepGraph

structure Diagnostic where
  message : String
  suggestion : Option String := none
  code : Option String := none
  details : List String := []
  deriving DecidableEq, Repr

namespace Diagnostic

/-- The report of a graph's error. A cycle is shown link by link, each with its site. -/
def ofError (m : Manifest) (e : GraphError String) : Diagnostic where
  message :=
    match e.cycle? with
    | some c => "dependency cycle detected: " ++ c.render
    | none => e.message
  suggestion := e.hint
  code := some e.code
  details := ((e.cycle?.map fun c => c.links m.siteOf).getD []).map fun l =>
    l.site ++ ": " ++ l.source ++ " imports " ++ l.target

/-- What is absent is left out; the fields stand in alphabetical order. -/
def toValue (d : Diagnostic) : Value :=
  let details := if d.details.isEmpty then [] else [("details", Value.texts d.details)]
  let code := d.code.map fun code => ("error_code", Value.text code)
  let suggestion := d.suggestion.map fun s => ("suggestion", Value.text s)
  .table [("error",
    .table (details ++ code.toList ++ [("message", .text d.message)] ++ suggestion.toList))]

def toLines (d : Diagnostic) : List String :=
  let label := match d.code with
    | some code => "error[" ++ code ++ "]: "
    | none => "error: "
  [label ++ d.message] ++ d.details.map ("  " ++ ·) ++
    (d.suggestion.map ("  suggestion: " ++ ·)).toList

def render (d : Diagnostic) (s : Style) : String :=
  Report.render ⟨d.toValue, d.toLines, d.toLines⟩ s

end Diagnostic

end DepGraph
