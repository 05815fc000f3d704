import DepGraph.Command

/-!
# The command line

The command line: options for all commands, the command, and its own options and manifest. An
option is given once at each level, except that public entities add up.
-/

namespace DepGraph

structure Invocation where
  style : Option Style := none
  asJson : Bool := false
  command : Command
  path : String
  deriving DecidableEq, Repr

namespace CommandLine

/-- The options of one level, by name: flags, and those that take a value. -/
structure Level where
  flags : List String
  valued : List String

inductive Given where
  | flag (name : String)
  | value (name text : String)
  deriving DecidableEq, Repr

def Given.name : Given → String
  | .flag name => name
  | .value name _ => name

inductive Reading where
  | done (g : Given)
  | awaiting (name : String)
  | unknown

/-- An argument that is read as an option; a hyphen alone is a word. -/
def isOption (arg : String) : Bool := arg.startsWith "-" && arg != "-"

def Level.read (l : Level) (arg : String) : Reading :=
  match arg.splitOn "=" with
  | [name] =>
    if l.flags.contains name then .done (.flag name)
    else if l.valued.contains name then .awaiting name
    else .unknown
  | name :: text =>
    if l.valued.contains name then .done (.value name ("=".intercalate text)) else .unknown
  | [] => .unknown

/-- Options and words up to the end, or up to the first word if `stop`. After a double hyphen there
are only words. -/
def arguments? (l : Level) (stop : Bool) : List String → Option (List Given × List String)
  | [] => some ([], [])
  | "--" :: rest => if stop then none else some ([], rest)
  | arg :: rest =>
    if isOption arg then
      match l.read arg, rest with
      | .done g, rest => (arguments? l stop rest).map fun (gs, ws) => (g :: gs, ws)
      | .awaiting name, text :: rest =>
        if isOption text then none
        else (arguments? l stop rest).map fun (gs, ws) => (.value name text :: gs, ws)
      | _, _ => none
    else if stop then some ([], arg :: rest)
    else (arguments? l stop rest).map fun (gs, ws) => (gs, arg :: ws)

def isGiven (gs : List Given) (name : String) : Bool := gs.any (· == .flag name)

def valuesOf (gs : List Given) (name : String) : List String :=
  gs.filterMap fun
    | .value n text => if n = name then some text else none
    | .flag _ => none

def hasRepeats (gs : List Given) : Bool :=
  let names := (gs.map Given.name).filter (· != "--public")
  names.eraseDups.length != names.length

def reading? {α : Type} (read : String → Option α) (gs : List Given) (name : String) :
    Option (Option α) :=
  match valuesOf gs name with
  | [] => some none
  | text :: _ => (read text).map some

def globalLevel : Level := ⟨["-v", "--verbose", "--json"], ["--format"]⟩

def commandLevel? (name : String) : Option Level :=
  if name = "resolve" then some ⟨["--json", "--check-self-loops"], ["--format", "--mode"]⟩
  else if name = "cycle" then some ⟨["--json"], ["--format"]⟩
  else if name = "prune" then some ⟨["--json", "--reachable"], ["--format", "--public"]⟩
  else none

def command? (name : String) (gs : List Given) : Option Command :=
  if name = "resolve" then
    (reading? Mode.parse? gs "--mode").map (.resolve · (isGiven gs "--check-self-loops"))
  else if name = "cycle" then some .cycle
  else if name = "prune" then
    let strategy := if isGiven gs "--reachable" then Strategy.byReach else .byComponent
    some (.prune strategy (valuesOf gs "--public"))
  else none

/-- Both spellings of the flag for talking more are one option. -/
def unify : Given → Given
  | .flag "-v" => .flag "--verbose"
  | g => g

def parse? (args : List String) : Option Invocation := do
  let (globals, rest) ← arguments? globalLevel true args
  let name ← rest.head?
  let level ← commandLevel? name
  let (locals, words) ← arguments? level false rest.tail
  let globals := globals.map unify
  if hasRepeats globals || hasRepeats locals then none
  else
    let outer ← reading? Style.ofName? globals "--format"
    let inner ← reading? Style.ofName? locals "--format"
    let command ← command? name locals
    match words with
    | [path] =>
      if path.isEmpty then none
      else
        some { style := inner.or outer
               asJson := isGiven globals "--json" || isGiven locals "--json"
               command, path }
    | _ => none

end CommandLine

structure Exit where
  code : Nat
  stdout : String := ""
  stderr : String := ""
  deriving DecidableEq, Repr

def Exit.usage : Exit := { code := 2 }

def Invocation.run (i : Invocation) (environment : Option String) (content : Option ByteArray) :
    Exit :=
  let o := i.command.runFile (Style.choose i.style i.asJson environment) i.path content
  match o.failure with
  | none => ⟨0, o.stdout, o.stderr⟩
  | some f => ⟨1, o.stdout, o.stderr ++ f.render⟩

end DepGraph
