import DepGraph.Manifest.Format
import DepGraph.Report.Diagnostic
import DepGraph.Report.Links
import DepGraph.Report.Pruning
import DepGraph.Report.Ranking

/-!
# Commands

The commands: each takes a manifest, writes a report, and may fail. Nothing here touches the
outside; a run is a value with the texts of both output streams.
-/

namespace DepGraph

inductive Command where
  | resolve (mode : Option Mode) (checkSelfLoops : Bool)
  | cycle
  | prune (strategy : Strategy) (publics : List String)
  deriving DecidableEq, Repr

inductive Failure where
  | unreadable (path : String)
  | malformed (path : String)
  | invalid (i : Invalid)
  | unbuilt (e : GraphError String)
  | graph (e : GraphError String)
  | cyclic (length : Nat)
  deriving DecidableEq, Repr

def Failure.chain : Failure → List String
  | .unreadable path => ["failed to read manifest " ++ path]
  | .malformed path => ["failed to parse manifest " ++ path]
  | .invalid i => ["invalid entity '" ++ i.id ++ "'", i.cause.message]
  | .unbuilt e => [e.message]
  | .graph e => [e.code ++ " " ++ e.summary]
  | .cyclic length => [s!"dependency cycle of {length} entities"]

def Failure.render (f : Failure) : String :=
  match f.chain with
  | [] => ""
  | message :: causes =>
    "Error: " ++ message ++ "\n" ++
      if causes.isEmpty then "" else "\nCaused by:\n" ++ Report.lines (causes.map ("    " ++ ·))

structure Outcome where
  stdout : String := ""
  stderr : String := ""
  failure : Option Failure := none
  deriving DecidableEq, Repr

namespace Command

/-- A graph's error is reported on the error stream before the command fails with it. -/
def refuse (m : Manifest) (style : Style) (e : GraphError String) : Outcome :=
  { stderr := (Diagnostic.ofError m e).render style, failure := some (.graph e) }

def options (m : Manifest) (mode : Option Mode) (checkSelfLoops : Bool) : Options where
  mode := mode.getD m.settings.mode
  checkSelfLoops := m.settings.checkSelfLoops || checkSelfLoops

def runResolve (m : Manifest) (style : Style) (o : Options) : Outcome :=
  match m.table with
  | .error i => { failure := some (.invalid i) }
  | .ok t =>
    match t.resolve o with
    | .error e => refuse m style e
    | .ok r => { stdout := r.report.render style }

/-- The table of the manifest, built. That it cannot be built is not reported as a graph's error. -/
def builtTable (m : Manifest) : Except Failure (Table String) :=
  match m.table with
  | .error i => .error (.invalid i)
  | .ok t =>
    match t.build with
    | (.error e, _) => .error (.unbuilt e)
    | (.ok (), t) => .ok t

def runCycle (m : Manifest) (style : Style) : Outcome :=
  match builtTable m with
  | .error f => { failure := some f }
  | .ok t =>
    match t.findCycle with
    | none => { stdout := Link.acyclicReport.render style }
    | some c =>
      { stdout := (Link.report (c.links m.siteOf)).render style
        failure := some (.cyclic c.length) }

/-- The public entities of a pruning, ascending: those of the manifest and those asked for. -/
def publics (m : Manifest) (more : List String) : List String :=
  (Entity.sort (m.publicIds ++ more)).eraseReps

/-- Pruning looks at the graph alone: the manifest's settings do not matter. -/
def runPrune (m : Manifest) (style : Style) (strategy : Strategy) (more : List String) : Outcome :=
  let publics := publics m more
  let found (p : Prunable String) : Outcome :=
    { stdout := (p.report strategy publics).render style }
  match strategy with
  | .byReach =>
    match builtTable m with
    | .error f => { failure := some f }
    | .ok t => found (t.pruneUnreachable publics)
  | .byComponent =>
    match m.table with
    | .error i => { failure := some (.invalid i) }
    | .ok t =>
      match t.resolve {} with
      | .error e => refuse m style e
      | .ok r => found (r.prune publics)

def run (m : Manifest) (style : Style) : Command → Outcome
  | .resolve mode check => runResolve m style (options m mode check)
  | .cycle => runCycle m style
  | .prune strategy more => runPrune m style strategy more

def load (path : String) (content : Option ByteArray) : Except Failure Manifest :=
  match content.bind String.fromUTF8? with
  | none => .error (.unreadable path)
  | some text =>
    match Manifest.parse? (Format.ofPath path) text with
    | none => .error (.malformed path)
    | some m => .ok m

def runFile (c : Command) (style : Style) (path : String) (content : Option ByteArray) : Outcome :=
  match load path content with
  | .error f => { failure := some f }
  | .ok m => c.run m style

end Command

end DepGraph
