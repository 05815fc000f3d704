import DepGraph.Text.Hex

/-!
# Strings of TOML

The strings of a TOML document: basic and literal, on one line or several. Each reader starts
after the opening quotes and returns what follows the closing ones. A line break in a string of
several lines is a line feed, however the document ends its lines.
-/

namespace DepGraph.Toml

def isWs (c : Char) : Bool := c == ' ' || c == '\t'

def atNewline : List Char → Bool
  | '\n' :: _ => true
  | '\r' :: '\n' :: _ => true
  | _ => false

/-- Characters that may stand in a document as they are: no controls but the tab. -/
def isPlain (c : Char) : Bool := c == '\t' || (0x20 ≤ c.toNat && c.toNat != 0x7f)

def shortEscape? : Char → Option Char
  | 'b' => some '\x08'
  | 't' => some '\t'
  | 'n' => some '\n'
  | 'f' => some '\x0c'
  | 'r' => some '\r'
  | '"' => some '"'
  | '\\' => some '\\'
  | _ => none

def consIn (c : Char) : Option (List Char × List Char) → Option (List Char × List Char)
  | none => none
  | some (s, rest) => some (c :: s, rest)

def basic? : List Char → Option (List Char × List Char)
  | [] => none
  | '"' :: rest => some ([], rest)
  | '\\' :: 'u' :: a :: b :: c :: d :: rest =>
    (Text.hexChar? [a, b, c, d]).bind fun ch => consIn ch (basic? rest)
  | '\\' :: 'U' :: a :: b :: c :: d :: e :: f :: g :: h :: rest =>
    (Text.hexChar? [a, b, c, d, e, f, g, h]).bind fun ch => consIn ch (basic? rest)
  | '\\' :: c :: rest => (shortEscape? c).bind fun ch => consIn ch (basic? rest)
  | c :: rest => if isPlain c && c != '\\' then consIn c (basic? rest) else none

def literal? : List Char → Option (List Char × List Char)
  | [] => none
  | '\'' :: rest => some ([], rest)
  | c :: rest => if isPlain c then consIn c (literal? rest) else none

/-- A basic string of several lines. While `folding`, blanks and line breaks are passed over: a
backslash at the end of a line joins it to the next text. Up to two quotes may stand before the
closing three. -/
def basicLines? (folding : Bool) : List Char → Option (List Char × List Char)
  | [] => none
  | '"' :: '"' :: '"' :: '"' :: '"' :: rest => some (['"', '"'], rest)
  | '"' :: '"' :: '"' :: '"' :: rest => some (['"'], rest)
  | '"' :: '"' :: '"' :: rest => some ([], rest)
  | '\r' :: '\n' :: rest =>
    if folding then basicLines? true rest else consIn '\n' (basicLines? false rest)
  | '\\' :: 'u' :: a :: b :: c :: d :: rest =>
    (Text.hexChar? [a, b, c, d]).bind fun ch => consIn ch (basicLines? false rest)
  | '\\' :: 'U' :: a :: b :: c :: d :: e :: f :: g :: h :: rest =>
    (Text.hexChar? [a, b, c, d, e, f, g, h]).bind fun ch => consIn ch (basicLines? false rest)
  | '\\' :: c :: rest =>
    if atNewline ((c :: rest).dropWhile isWs) then basicLines? true (c :: rest)
    else (shortEscape? c).bind fun ch => consIn ch (basicLines? false rest)
  | c :: rest =>
    if folding && (isWs c || c == '\n') then basicLines? true rest
    else if (isPlain c && c != '\\') || c == '\n' then consIn c (basicLines? false rest)
    else none

def literalLines? : List Char → Option (List Char × List Char)
  | [] => none
  | '\'' :: '\'' :: '\'' :: '\'' :: '\'' :: rest => some (['\'', '\''], rest)
  | '\'' :: '\'' :: '\'' :: '\'' :: rest => some (['\''], rest)
  | '\'' :: '\'' :: '\'' :: rest => some ([], rest)
  | '\r' :: '\n' :: rest => consIn '\n' (literalLines? rest)
  | c :: rest => if isPlain c || c == '\n' then consIn c (literalLines? rest) else none

/-- A line break right after the opening quotes is not part of the string. -/
def skipNewline : List Char → List Char
  | '\n' :: rest => rest
  | '\r' :: '\n' :: rest => rest
  | cs => cs

/-- A string of one line, with its quotes. Keys are quoted in no other way. -/
def quoted? : List Char → Option (List Char × List Char)
  | '"' :: rest => basic? rest
  | '\'' :: rest => literal? rest
  | _ => none

def string? : List Char → Option (List Char × List Char)
  | '"' :: '"' :: '"' :: rest => basicLines? false (skipNewline rest)
  | '\'' :: '\'' :: '\'' :: rest => literalLines? (skipNewline rest)
  | cs => quoted? cs

end DepGraph.Toml
