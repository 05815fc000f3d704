import DepGraph.Json.Writer

/-!
# Styles of a report

The three styles of a report: JSON for programs, bare text for pipes, and a pretty layout with
headings for reading.
-/

namespace DepGraph

inductive Style where
  | pretty
  | text
  | json
  deriving DecidableEq, Repr

namespace Style

def ofName? (s : String) : Option Style :=
  if s = "pretty" then some .pretty
  else if s = "text" then some .text
  else if s = "json" then some .json
  else none

/-- The style of a run: the one asked for, else JSON if that was asked for, else the one the
environment names in any case, else text. -/
def choose (asked : Option Style) (asJson : Bool) (environment : Option String) : Style :=
  match asked with
  | some style => style
  | none =>
    if asJson then .json
    else (environment.bind fun s => ofName? (s.map Char.toLower)).getD .text

end Style

structure Report where
  data : Value
  text : List String
  pretty : List String

namespace Report

def lines (ls : List String) : String := String.join (ls.map (· ++ "\n"))

def render (r : Report) : Style → String
  | .json => Json.render r.data
  | .text => lines r.text
  | .pretty => lines r.pretty

def keyed (key value : String) : String :=
  (key ++ ":").pushn ' ' (12 - (key.length + 1)) ++ " " ++ value

def headed (heading : String) : List String := [heading, "".pushn '-' 72]

def column (n : Nat) : String := "".pushn ' ' (3 - (toString n).length) ++ toString n

end Report

end DepGraph
