import DepGraph.Entity
import DepGraph.Text.GraphemeExtend
import DepGraph.Text.Hex
import DepGraph.Text.Unprintable

/-!
# Quoted text

Quoted text, as entities appear inside messages: double quotes around, the usual short
escapes, and the code point in braces for whatever has no safe visible form.
-/

namespace DepGraph.Text

/-- Letters without a visible form: the fillers of Hangul. -/
def isFiller (c : Char) : Bool := [0x115f, 0x1160, 0x3164, 0xffa0].contains c.toNat

/-- Letters that extend the one before them and still fill a cell of their own: the halfwidth sound
marks of Katakana. -/
def isSoundMark (c : Char) : Bool := c.toNat == 0xff9e || c.toNat == 0xff9f

/-- Whether a character would be unseen, or would change how its neighbour looks. -/
def isElusive (c : Char) : Bool :=
  isUnprintable c || isFiller c || (isGraphemeExtend c && !isSoundMark c)

/-- A character as it stands between double quotes. Single quotes are left alone. -/
def escape (c : Char) : String :=
  match c with
  | '\x00' => "\\0"
  | '\t' => "\\t"
  | '\r' => "\\r"
  | '\n' => "\\n"
  | '\\' => "\\\\"
  | '"' => "\\\""
  | c => if isElusive c then "\\u\x7b" ++ hex c.toNat ++ "\x7d"
         else c.toString

def quote (s : String) : String := "\"" ++ String.join (s.toList.map escape) ++ "\""

def bracketed (items : List String) : String := "[" ++ ", ".intercalate items ++ "]"

end DepGraph.Text

namespace DepGraph

instance : Label Int := ⟨toString, toString⟩

instance : Label String := ⟨id, Text.quote⟩

def Label.quotedList {E : Type} [Label E] (es : List E) : String :=
  Text.bracketed (es.map Label.quoted)

end DepGraph
