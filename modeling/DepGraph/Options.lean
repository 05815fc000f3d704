import DepGraph.Text.Blank

/-!
# Options of a resolution

How a graph is resolved: whether cycles are ranked as clusters or refused, and whether an entity
may depend on itself.
-/

namespace DepGraph

inductive Mode where
  | ranking
  | strictAcyclic
  deriving DecidableEq, Repr

namespace Mode

instance : Inhabited Mode := ⟨.ranking⟩

def name : Mode → String
  | .ranking => "ranking"
  | .strictAcyclic => "strict-acyclic"

def ofName? (s : String) : Option Mode :=
  if s = "ranking" then some .ranking
  else if s = "strict-acyclic" then some .strictAcyclic
  else none

/-- Folds a mode's spelling: no blanks around it, lower case, hyphens for underscores. -/
def fold (s : String) : String :=
  String.ofList ((Text.trim s).toList.map fun c => if c = '_' then '-' else c.toLower)

/-- Reads a mode as a user types it; `strict` is short for the strict mode. -/
def parse? (s : String) : Option Mode :=
  if fold s = "strict" then some .strictAcyclic else ofName? (fold s)

def unknownMessage (s : String) : String :=
  "unknown mode '" ++ s ++ "': expected 'ranking' or 'strict-acyclic'"

end Mode

structure Options where
  mode : Mode := .ranking
  checkSelfLoops : Bool := false
  deriving DecidableEq, Repr

namespace Options

def strict : Options := ⟨.strictAcyclic, true⟩

/-- The strict mode refuses self loops whether or not the check is on. -/
def rejectsSelfLoops (o : Options) : Bool := o.mode == .strictAcyclic || o.checkSelfLoops

end Options

end DepGraph
