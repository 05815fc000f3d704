/-!
# Values of data files

Structured data as a document holds it, before it is read as anything in particular. A number is
kept as it is written. Fields keep the order of the document, repeated ones included.
-/

namespace DepGraph

inductive Value where
  | null
  | bool (b : Bool)
  | number (digits : String)
  | text (s : String)
  | list (items : List Value)
  | table (fields : List (String × Value))

namespace Value

def nat (n : Nat) : Value := .number (toString n)

def texts (ss : List String) : Value := .list (ss.map .text)

def bool? : Value → Option Bool
  | .bool b => some b
  | _ => none

def text? : Value → Option String
  | .text s => some s
  | _ => none

def list? : Value → Option (List Value)
  | .list items => some items
  | _ => none

def table? : Value → Option (List (String × Value))
  | .table fields => some fields
  | _ => none

def texts? (v : Value) : Option (List String) := v.list?.bind (List.mapM text?)

/-- The fields of a record, in the order of `names`. A record is a table without unknown or repeated
fields, or the list of its first fields; a list may go on after them if `surplus`. -/
def record? (surplus : Bool) (names : List String) : Value → Option (List (Option Value))
  | .table fields =>
    let keys := fields.map (·.1)
    if keys.all names.contains && keys.eraseDups.length == keys.length then
      some (names.map (fields.lookup ·))
    else none
  | .list items =>
    if surplus || items.length ≤ names.length then
      some ((items.take names.length).map some ++
        List.replicate (names.length - items.length) none)
    else none
  | _ => none

end Value

end DepGraph
