import DepGraph.Text.Hex
import DepGraph.Value

/-!
# Reading JSON

Reading JSON text: first into tokens, then into a value. Nothing may follow the value but white
space. The parse of tokens counts calls down from a bound that no document reaches.
-/

namespace DepGraph.Json

inductive Token where
  | openBrace
  | closeBrace
  | openBracket
  | closeBracket
  | colon
  | comma
  | text (s : String)
  | word (s : String)
  deriving DecidableEq, Repr

def pair? (high low : Nat) : Option Char :=
  if 0xd800 ≤ high ∧ high < 0xdc00 ∧ 0xdc00 ≤ low ∧ low < 0xe000 then
    Text.char? (0x10000 + (high - 0xd800) * 0x400 + (low - 0xdc00))
  else none

def shortEscape? : Char → Option Char
  | '"' => some '"'
  | '\\' => some '\\'
  | '/' => some '/'
  | 'b' => some '\x08'
  | 'f' => some '\x0c'
  | 'n' => some '\n'
  | 'r' => some '\r'
  | 't' => some '\t'
  | _ => none

/-- One character of a string and what follows it. The characters come after the opening quote; the
closing one is not consumed. -/
def stringChar? : List Char → Option (Char × List Char)
  | '\\' :: 'u' :: a :: b :: c :: d :: rest => do
    let unit ← Text.hexValue? [a, b, c, d]
    match Text.char? unit, rest with
    | some ch, _ => some (ch, rest)
    | none, '\\' :: 'u' :: e :: f :: g :: h :: rest =>
      (pair? unit (← Text.hexValue? [e, f, g, h])).map (·, rest)
    | none, _ => none
  | '\\' :: c :: rest => (shortEscape? c).map (·, rest)
  | c :: rest => if c = '\\' ∨ c.toNat < 0x20 then none else some (c, rest)
  | [] => none

theorem stringChar?_length {cs rest : List Char} {c : Char}
    (h : stringChar? cs = some (c, rest)) : rest.length < cs.length := by
  unfold stringChar? at h
  split at h
  · simp only [Option.bind_eq_bind, Option.bind_eq_some_iff] at h
    obtain ⟨unit, _, h⟩ := h
    split at h
    · simp only [Option.some.injEq, Prod.mk.injEq] at h
      rw [← h.2]
      simp only [List.length_cons]
      omega
    · simp only [Option.bind_eq_some_iff, Option.map_eq_some_iff, Prod.mk.injEq] at h
      obtain ⟨_, _, _, _, _, h⟩ := h
      rw [← h]
      simp only [List.length_cons]
      omega
    · cases h
  · simp only [Option.map_eq_some_iff, Prod.mk.injEq] at h
    obtain ⟨_, _, _, h⟩ := h
    rw [← h]
    simp only [List.length_cons]
    omega
  · split at h
    · cases h
    · simp only [Option.some.injEq, Prod.mk.injEq] at h
      rw [← h.2]
      simp only [List.length_cons]
      omega
  · cases h

/-- The rest of a string after its opening quote, and what follows the closing one. -/
def stringTail? (cs : List Char) : Option (List Char × List Char) :=
  match cs with
  | '"' :: rest => some ([], rest)
  | cs =>
    match _h : stringChar? cs with
    | none => none
    | some (c, rest) => (stringTail? rest).map fun (s, rest) => (c :: s, rest)
termination_by cs.length
decreasing_by exact stringChar?_length _h

theorem stringTail?_length {cs s rest : List Char} (h : stringTail? cs = some (s, rest)) :
    rest.length < cs.length := by
  fun_induction stringTail? cs generalizing s rest with
  | case1 rest' =>
    simp at h
    simp [← h.2]
  | case2 => simp at h
  | case3 cs _ c rest' hc ih =>
    obtain ⟨⟨s', rest''⟩, hs, heq⟩ := Option.map_eq_some_iff.mp h
    simp at heq
    have := ih hs
    have := stringChar?_length hc
    rw [← heq.2]
    omega

def isSpace (c : Char) : Bool := c == ' ' || c == '\n' || c == '\r' || c == '\t'

def mark? : Char → Option Token
  | '{' => some .openBrace
  | '}' => some .closeBrace
  | '[' => some .openBracket
  | ']' => some .closeBracket
  | ':' => some .colon
  | ',' => some .comma
  | _ => none

def isWordChar (c : Char) : Bool := c.isAlphanum || c == '+' || c == '-' || c == '.'

theorem length_dropWhile_le (p : Char → Bool) (cs : List Char) :
    (cs.dropWhile p).length ≤ cs.length :=
  (List.dropWhile_suffix p).length_le

def tokens? (cs : List Char) : Option (List Token) :=
  match cs with
  | [] => some []
  | c :: rest =>
    if isSpace c then tokens? rest
    else if c = '"' then
      match _h : stringTail? rest with
      | none => none
      | some (s, rest) => (tokens? rest).map (.text (String.ofList s) :: ·)
    else if isWordChar c then
      (tokens? (rest.dropWhile isWordChar)).map
        (.word (String.ofList (c :: rest.takeWhile isWordChar)) :: ·)
    else
      match mark? c with
      | none => none
      | some t => (tokens? rest).map (t :: ·)
termination_by cs.length
decreasing_by
  · simp
  · have := stringTail?_length _h
    simp
    omega
  · have := length_dropWhile_le isWordChar rest
    simp
    omega
  · simp

def digits? (cs : List Char) : Option (List Char) :=
  if (cs.takeWhile Char.isDigit).isEmpty then none else some (cs.dropWhile Char.isDigit)

/-- The part of a number before the point: a zero alone, or digits that start with none. -/
def wholePart? : List Char → Option (List Char)
  | '0' :: rest => some rest
  | cs => digits? cs

def fraction? : List Char → Option (List Char)
  | '.' :: rest => digits? rest
  | cs => some cs

def exponent? : List Char → Option (List Char)
  | [] => some []
  | e :: sign :: rest =>
    if e = 'e' ∨ e = 'E' then
      if sign = '+' ∨ sign = '-' then digits? rest else digits? (sign :: rest)
    else none
  | _ => none

def isNumber (cs : List Char) : Bool :=
  let unsigned := match cs with
    | '-' :: rest => rest
    | cs => cs
  (((wholePart? unsigned).bind fraction?).bind exponent?) == some []

def wordValue? (s : String) : Option Value :=
  if s = "null" then some .null
  else if s = "true" then some (.bool true)
  else if s = "false" then some (.bool false)
  else if isNumber s.toList then some (.number s)
  else none

mutual

def value? : Nat → List Token → Option (Value × List Token)
  | 0, _ => none
  | _ + 1, .text s :: rest => some (.text s, rest)
  | _ + 1, .word s :: rest => (wordValue? s).map (·, rest)
  | _ + 1, .openBracket :: .closeBracket :: rest => some (.list [], rest)
  | n + 1, .openBracket :: rest => (items? n rest).map fun (vs, rest) => (.list vs, rest)
  | _ + 1, .openBrace :: .closeBrace :: rest => some (.table [], rest)
  | n + 1, .openBrace :: rest => (fields? n rest).map fun (fs, rest) => (.table fs, rest)
  | _ + 1, _ => none

def items? : Nat → List Token → Option (List Value × List Token)
  | 0, _ => none
  | n + 1, ts =>
    match value? n ts with
    | some (v, .comma :: rest) => (items? n rest).map fun (vs, rest) => (v :: vs, rest)
    | some (v, .closeBracket :: rest) => some ([v], rest)
    | _ => none

def fields? : Nat → List Token → Option (List (String × Value) × List Token)
  | n + 1, .text key :: .colon :: ts =>
    match value? n ts with
    | some (v, .comma :: rest) => (fields? n rest).map fun (fs, rest) => ((key, v) :: fs, rest)
    | some (v, .closeBrace :: rest) => some ([(key, v)], rest)
    | _ => none
  | _, _ => none

end

/-- Each call either takes a token or is the first on its token, so twice their number bounds the
depth of calls. -/
def parse? (s : String) : Option Value := do
  let ts ← tokens? s.toList
  match value? (2 * ts.length + 1) ts with
  | some (v, []) => some v
  | _ => none

end DepGraph.Json
