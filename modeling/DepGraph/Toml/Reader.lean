import DepGraph.Toml.Item
import DepGraph.Toml.Moment
import DepGraph.Toml.Text

/-!
# Reading TOML

Reading TOML text, version 1.0. Arrays and inline tables nest only so deep, and a key has only so
many parts. Parsers that call each other count calls down from a bound that no document reaches.
-/

namespace DepGraph.Toml

def isBareChar (c : Char) : Bool := c.isAlphanum || c == '_' || c == '-'

def skipWs (cs : List Char) : List Char := cs.dropWhile isWs

/-- Passes over blanks, line breaks and comments. A comment may hold no control character. -/
def skipLines? (inComment : Bool) : List Char → Option (List Char)
  | [] => some []
  | '\r' :: '\n' :: rest => skipLines? false rest
  | '\n' :: rest => skipLines? false rest
  | c :: rest =>
    if inComment then if isPlain c then skipLines? true rest else none
    else if isWs c then skipLines? false rest
    else if c = '#' then skipLines? true rest
    else some (c :: rest)

/-- Whether nothing but a comment stands before the end of the line. -/
def atLineEnd (cs : List Char) : Bool :=
  match skipWs cs with
  | [] => true
  | c :: rest => c == '#' || atNewline (c :: rest)

def simpleKey? (cs : List Char) : Option (String × List Char) :=
  match cs with
  | [] => none
  | c :: _ =>
    if isBareChar c then some (String.ofList (cs.takeWhile isBareChar), cs.dropWhile isBareChar)
    else (quoted? cs).map fun (s, rest) => (String.ofList s, rest)

def maxDepth : Nat := 79

def keyParts? : Nat → List Char → Option (List String × List Char)
  | 0, _ => none
  | n + 1, cs =>
    match simpleKey? (skipWs cs) with
    | none => none
    | some (k, rest) =>
      match skipWs rest with
      | '.' :: rest => (keyParts? n rest).map fun (ks, rest) => (k :: ks, rest)
      | rest => some ([k], rest)

def key? (cs : List Char) : Option (List String × List Char) := keyParts? maxDepth cs

/-- A value without others inside it. A number is kept as it is written. -/
def scalar? (cs : List Char) : Option (Value × List Char) :=
  match string? cs with
  | some (s, rest) => some (.text (String.ofList s), rest)
  | none =>
    match moment? cs with
    | some (m, rest) => some (m.toValue, rest)
    | none =>
      (number? cs).map fun rest =>
        (.number (String.ofList (cs.take (cs.length - rest.length))), rest)

mutual

/-- A value with room for `room` more levels inside it. -/
def value? : Nat → Nat → List Char → Option (Value × List Char)
  | 0, _, _ => none
  | _ + 1, _, 't' :: 'r' :: 'u' :: 'e' :: rest => some (.bool true, rest)
  | _ + 1, _, 'f' :: 'a' :: 'l' :: 's' :: 'e' :: rest => some (.bool false, rest)
  | n + 1, room + 1, '[' :: rest => (items? n room rest).map fun (vs, rest) => (.list vs, rest)
  | n + 1, room + 1, '{' :: rest =>
    match skipWs rest with
    | '}' :: rest => some (.table [], rest)
    | rest => (pairs? n room [] rest).map fun (fs, rest) => (.table (fieldValues fs), rest)
  | _ + 1, _, cs => scalar? cs

/-- The items of an array, up to and with the closing bracket; a comma may follow the last. -/
def items? : Nat → Nat → List Char → Option (List Value × List Char)
  | 0, _, _ => none
  | n + 1, room, cs =>
    match skipLines? false cs with
    | none => none
    | some (']' :: rest) => some ([], rest)
    | some cs =>
      match value? n room cs with
      | none => none
      | some (v, rest) =>
        match skipLines? false rest with
        | some (',' :: rest) => (items? n room rest).map fun (vs, rest) => (v :: vs, rest)
        | some (']' :: rest) => some ([v], rest)
        | _ => none

/-- The pairs of an inline table, up to and with the closing brace; they stand on one line and no
comma follows the last. -/
def pairs? : Nat → Nat → Fields → List Char → Option (Fields × List Char)
  | 0, _, _, _ => none
  | n + 1, room, fs, cs =>
    match pair? n room cs with
    | none => none
    | some (path, key, v, rest) =>
      match put? fs key v path, skipWs rest with
      | some fs, ',' :: rest => pairs? n room fs rest
      | some fs, '}' :: rest => some (fs, rest)
      | _, _ => none

def pair? : Nat → Nat → List Char → Option (List String × String × Value × List Char)
  | 0, _, _ => none
  | n + 1, room, cs =>
    match key? cs with
    | some (ks, '=' :: rest) =>
      match ks.getLast?, value? n room (skipWs rest) with
      | some k, some (v, rest) => some (ks.dropLast, k, v, rest)
      | _, _ => none
    | _ => none

end

/-- A document so far: the root table, and the path of the header in force. -/
structure Document where
  root : Fields := []
  path : List String := []

def Document.header? (d : Document) (ks : List String)
    (openLast : String → Fields → Option Fields) : Option Document :=
  match ks.getLast? with
  | none => none
  | some k => (update? (openLast k) d.root ks.dropLast).map fun root => ⟨root, ks⟩

def expression? (fuel : Nat) (d : Document) : List Char → Option (Document × List Char)
  | '[' :: '[' :: rest =>
    match key? rest with
    | some (ks, ']' :: ']' :: rest) => (d.header? ks openElement?).map (·, rest)
    | _ => none
  | '[' :: rest =>
    match key? rest with
    | some (ks, ']' :: rest) => (d.header? ks openTable?).map (·, rest)
    | _ => none
  | cs =>
    match pair? fuel maxDepth cs with
    | some (path, key, v, rest) =>
      (update? (put? · key v path) d.root d.path).map fun root => ({ d with root }, rest)
    | none => none

def expressions? (fuel : Nat) : Nat → Document → List Char → Option Document
  | 0, _, _ => none
  | n + 1, d, cs =>
    match skipLines? false cs with
    | none => none
    | some [] => some d
    | some cs =>
      match expression? fuel d cs with
      | some (d, rest) => if atLineEnd rest then expressions? fuel n d rest else none
      | none => none

/-- The text may start with a byte order mark. A call that takes no character is followed by at most
two more before one is taken, so three times their number bounds the depth of calls. -/
def parse? (s : String) : Option Value :=
  let cs := match s.toList with
    | '\ufeff' :: rest => rest
    | cs => cs
  (expressions? (3 * cs.length + 3) (cs.length + 1) {} cs).map fun d => .table (fieldValues d.root)

end DepGraph.Toml
