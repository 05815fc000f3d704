import DepGraph.Text.Hex
import DepGraph.Value

/-!
# Writing JSON

Writing JSON text. Containers spread over lines, two blanks deeper each; an empty one stays on
its line. Strings escape quotes, backslashes and control characters, and nothing else.
-/

namespace DepGraph.Json

def escape (c : Char) : String :=
  match c with
  | '"' => "\\\""
  | '\\' => "\\\\"
  | '\x08' => "\\b"
  | '\x0c' => "\\f"
  | '\n' => "\\n"
  | '\r' => "\\r"
  | '\t' => "\\t"
  | c =>
    if c.toNat < 0x10 then "\\u000" ++ Text.hex c.toNat
    else if c.toNat < 0x20 then "\\u00" ++ Text.hex c.toNat
    else c.toString

def string (s : String) : String := "\"" ++ String.join (s.toList.map escape) ++ "\""

def margin (depth : Nat) : String := "".pushn ' ' (2 * depth)

def enclose (depth : Nat) (left right : String) : List String → String
  | [] => left ++ right
  | lines =>
    left ++ "\n" ++ ",\n".intercalate (lines.map (margin (depth + 1) ++ ·)) ++ "\n" ++
      margin depth ++ right

mutual

def pretty (depth : Nat) : Value → String
  | .null => "null"
  | .bool b => if b then "true" else "false"
  | .number digits => digits
  | .text s => string s
  | .list items => enclose depth "[" "]" (prettyItems (depth + 1) items)
  | .table fields => enclose depth "\x7b" "\x7d" (prettyFields (depth + 1) fields)

def prettyItems (depth : Nat) : List Value → List String
  | [] => []
  | v :: vs => pretty depth v :: prettyItems depth vs

def prettyFields (depth : Nat) : List (String × Value) → List String
  | [] => []
  | (key, v) :: fields => (string key ++ ": " ++ pretty depth v) :: prettyFields depth fields

end

def render (v : Value) : String := pretty 0 v ++ "\n"

end DepGraph.Json
