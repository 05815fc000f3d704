import DepGraph.Value

/-!
# TOML tables under construction

The table a TOML document builds up while it is read. What a table may still take in depends on
how it came about: one made by a header is open to keys under that header only, one made by a dotted
key to further dotted keys, and one implied by the path of a header to a header of its own. Values
are closed.
-/

namespace DepGraph.Toml

inductive Origin where
  | header
  | implied
  | dotted
  deriving DecidableEq, Repr

inductive Item where
  | leaf (v : Value)
  | table (origin : Origin) (fields : List (String × Item))
  /-- An array of tables, the latest first. -/
  | tables (elements : List (List (String × Item)))

abbrev Fields := List (String × Item)

def Fields.set (fs : Fields) (key : String) (item : Item) : Fields :=
  fs.map fun (k, old) => if k = key then (k, item) else (k, old)

/-- Enters a value under a dotted key: the path leads through tables that dotted keys made, and the
last of them must be one. -/
def put? (fs : Fields) (key : String) (v : Value) : List String → Option Fields
  | [] => if (fs.lookup key).isSome then none else some (fs ++ [(key, .leaf v)])
  | p :: ps =>
    match fs.lookup p with
    | none => (put? [] key v ps).map fun sub => fs ++ [(p, .table .dotted sub)]
    | some (.table origin sub) =>
      if origin = .dotted ∨ (origin = .implied ∧ ps ≠ []) then
        (put? sub key v ps).map fun sub => fs.set p (.table origin sub)
      else none
    | some (.tables (last :: earlier)) =>
      if ps = [] then none
      else (put? last key v ps).map fun last => fs.set p (.tables (last :: earlier))
    | some _ => none

/-- Changes the table at the end of a header's path. Missing tables on the way are implied; on the
way through an array of tables the path goes on in its latest element. -/
def update? (change : Fields → Option Fields) (fs : Fields) : List String → Option Fields
  | [] => change fs
  | p :: ps =>
    match fs.lookup p with
    | none => (update? change [] ps).map fun sub => fs ++ [(p, .table .implied sub)]
    | some (.table origin sub) =>
      (update? change sub ps).map fun sub => fs.set p (.table origin sub)
    | some (.tables (last :: earlier)) =>
      (update? change last ps).map fun last => fs.set p (.tables (last :: earlier))
    | some _ => none

/-- A header `[key]`: a new table, or one that was only implied so far. -/
def openTable? (key : String) (fs : Fields) : Option Fields :=
  match fs.lookup key with
  | none => some (fs ++ [(key, .table .header [])])
  | some (.table .implied sub) => some (fs.set key (.table .header sub))
  | some _ => none

/-- A header `[[key]]`: a further element of an array of tables. -/
def openElement? (key : String) (fs : Fields) : Option Fields :=
  match fs.lookup key with
  | none => some (fs ++ [(key, .tables [[]])])
  | some (.tables elements) => some (fs.set key (.tables ([] :: elements)))
  | some _ => none

mutual

def Item.value : Item → Value
  | .leaf v => v
  | .table _ fields => .table (fieldValues fields)
  | .tables elements => .list (elementValues elements).reverse

def fieldValues : List (String × Item) → List (String × Value)
  | [] => []
  | (key, item) :: fields => (key, item.value) :: fieldValues fields

def elementValues : List (List (String × Item)) → List Value
  | [] => []
  | fields :: elements => .table (fieldValues fields) :: elementValues elements

end

end DepGraph.Toml
