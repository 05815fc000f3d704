import DepGraph.Json.Reader
import DepGraph.Manifest.Basic
import DepGraph.Toml.Reader

/-!
# Manifests as data

Manifests as data, and the reading of their two formats. Fields that are left out have defaults,
except the name of an entity; a field that is not known is an error.
-/

namespace DepGraph

inductive Format where
  | json
  | toml
  deriving DecidableEq, Repr

namespace Format

def parse? : Format → String → Option Value
  | .json => Json.parse?
  | .toml => Toml.parse?

/-- What stands for no content where content could stand: null, or an empty table or list in the
format that has no null. -/
def isUnit : Format → Value → Bool
  | .json, .null => true
  | .toml, .table [] => true
  | .toml, .list [] => true
  | _, _ => false

/-- Whether the list of a record's fields may go on after the last of them. -/
def allowsSurplus : Format → Bool
  | .json => false
  | .toml => true

/-- The format of a file: a last extension `json` in any case means JSON, all else TOML. A name that
starts with its only dot has no extension. -/
def ofPath (path : String) : Format :=
  match ((path.splitOn "/").getLastD "").splitOn "." with
  | [] | [_] | ["", _] => .toml
  | parts =>
    if ((parts.getLastD "").map Char.toLower) = "json" then .json else .toml

end Format

def Value.readOr {α : Type} (default : α) (read : Value → Option α) : Option Value → Option α
  | none => some default
  | some v => read v

namespace Mode

/-- A mode is its name, or a table of one field with that name and no content. -/
def ofValue? (f : Format) : Value → Option Mode
  | .text name => ofName? name
  | .table [(name, content)] => if f.isUnit content then ofName? name else none
  | _ => none

end Mode

namespace Options

def ofValue? (f : Format) (v : Value) : Option Options :=
  match v.record? f.allowsSurplus ["mode", "check_self_loops"] with
  | some [mode, check] => do
    let mode ← Value.readOr .ranking (Mode.ofValue? f) mode
    let checkSelfLoops ← Value.readOr false Value.bool? check
    return { mode, checkSelfLoops }
  | _ => none

def toValue (o : Options) : Value :=
  .table [("mode", .text o.mode.name), ("check_self_loops", .bool o.checkSelfLoops)]

end Options

namespace Sites

def ofValue? (v : Value) : Option Sites := do
  let fields ← v.table?
  let entries ← fields.mapM fun (key, site) => site.text?.map (key, ·)
  return ofList entries

def toValue (m : Sites) : Value := .table (m.entries.map fun (key, site) => (key, .text site))

end Sites

namespace Declaration

/-- A path may be null, which is as good as none. -/
def pathOfValue? : Value → Option (Option String)
  | .null => some none
  | v => v.text?.map some

def ofValue? (f : Format) (v : Value) : Option Declaration :=
  match v.record? f.allowsSurplus ["id", "deps", "public", "path", "sites"] with
  | some [some id, deps, isPublic, path, sites] => do
    let id ← id.text?
    let deps ← Value.readOr [] Value.texts? deps
    let isPublic ← Value.readOr false Value.bool? isPublic
    let path ← Value.readOr none pathOfValue? path
    let sites ← Value.readOr .empty Sites.ofValue? sites
    return { id, deps, isPublic, path, sites }
  | _ => none

def listOfValue? (f : Format) (v : Value) : Option (List Declaration) :=
  v.list?.bind (List.mapM (ofValue? f))

/-- A path and sites are written only if there are any. -/
def toValue (d : Declaration) : Value :=
  .table ([("id", .text d.id), ("deps", .texts d.deps), ("public", .bool d.isPublic)] ++
    (d.path.map fun path => ("path", Value.text path)).toList ++
    if d.sites.entries.isEmpty then [] else [("sites", d.sites.toValue)])

end Declaration

namespace Manifest

def ofValue? (f : Format) (v : Value) : Option Manifest :=
  match v.record? f.allowsSurplus ["settings", "entity"] with
  | some [settings, entities] => do
    let settings ← Value.readOr {} (Options.ofValue? f) settings
    let entities ← Value.readOr [] (Declaration.listOfValue? f) entities
    return { settings, entities }
  | _ => none

def toValue (m : Manifest) : Value :=
  .table [("settings", m.settings.toValue), ("entity", .list (m.entities.map (·.toValue)))]

def parse? (f : Format) (s : String) : Option Manifest := (f.parse? s).bind (ofValue? f)

end Manifest

end DepGraph
