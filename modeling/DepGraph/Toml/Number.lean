import DepGraph.Text.Hex

/-!
# Numbers of TOML

Whole numbers are of 64 bits; numbers with a point or an exponent are rounded to double precision.
Nothing computes with them, so a number is read only to know where it ends and that it is in range.
Each reader returns what follows the number.
-/

namespace DepGraph.Toml

def isDigitOf (base : Nat) (c : Char) : Bool := (Text.hexDigit? c).any (· < base)

def numeral (base : Nat) (digits : List Char) : Nat :=
  digits.foldl (fun n c => base * n + (Text.hexDigit? c).getD 0) 0

def digitTail (base : Nat) : List Char → List Char × List Char
  | [] => ([], [])
  | '_' :: c :: cs =>
    if isDigitOf base c then
      let (ds, rest) := digitTail base cs
      (c :: ds, rest)
    else ([], '_' :: c :: cs)
  | c :: cs =>
    if isDigitOf base c then
      let (ds, rest) := digitTail base cs
      (c :: ds, rest)
    else ([], c :: cs)

/-- One or more digits. A single underscore may stand between two of them and is left out. -/
def digits? (base : Nat) : List Char → Option (List Char × List Char)
  | [] => none
  | c :: cs =>
    if isDigitOf base c then
      let (ds, rest) := digitTail base cs
      some (c :: ds, rest)
    else none

def sign : List Char → Bool × List Char
  | '-' :: cs => (true, cs)
  | '+' :: cs => (false, cs)
  | cs => (false, cs)

/-- A whole number starts with a zero only if it is zero. -/
def wholePart? : List Char → Option (List Char × List Char)
  | '0' :: cs => some (['0'], cs)
  | cs => digits? 10 cs

def fraction? : List Char → Option (List Char × List Char)
  | '.' :: cs => digits? 10 cs
  | cs => some ([], cs)

def exponent? : List Char → Option (Int × List Char)
  | [] => some (0, [])
  | c :: cs =>
    if c = 'e' ∨ c = 'E' then
      let (negative, cs) := sign cs
      (digits? 10 cs).map fun (ds, rest) =>
        (if negative then -(numeral 10 ds : Int) else (numeral 10 ds : Int), rest)
    else some (0, c :: cs)

def wordBound : Nat := 0x8000000000000000

/-- The middle between the greatest double and the power of two above it. -/
def overflowBound : Nat := (Nat.pow 2 54 - 1) * Nat.pow 2 970

/-- Whether `m * 10 ^ e` is too great for a double: at the bound the tie goes to the even side,
which is infinity. The bound has 309 places, so only a number of as many needs the comparison, and
no power is raised further than the places of the number go. -/
def overflows (m : Nat) (e : Int) : Bool :=
  let places := (Nat.toDigits 10 m).length + e
  if m = 0 ∨ places < 309 then false
  else if 309 < places then true
  else if 0 ≤ e then overflowBound ≤ m * Nat.pow 10 e.toNat
  else overflowBound * Nat.pow 10 (-e).toNat ≤ m

def hasFraction : List Char → Bool
  | c :: _ => c == '.' || c == 'e' || c == 'E'
  | [] => false

/-- A number after its sign. Below zero an overflow is taken as negative infinity and is no
error. -/
def decimal? (negative : Bool) (cs : List Char) : Option (List Char) :=
  match wholePart? cs with
  | none => none
  | some (whole, rest) =>
    if hasFraction rest then
      match fraction? rest with
      | none => none
      | some (frac, rest) =>
        match exponent? rest with
        | none => none
        | some (e, rest) =>
          if !negative && overflows (numeral 10 (whole ++ frac)) (e - frac.length) then none
          else some rest
    else if numeral 10 whole < wordBound + (if negative then 1 else 0) then some rest
    else none

/-- A number in another base has no sign. -/
def based? (base : Nat) (cs : List Char) : Option (List Char) :=
  match digits? base cs with
  | some (ds, rest) => if numeral base ds < wordBound then some rest else none
  | none => none

def signed? (negative : Bool) : List Char → Option (List Char)
  | 'i' :: 'n' :: 'f' :: rest => some rest
  | 'n' :: 'a' :: 'n' :: rest => some rest
  | cs => decimal? negative cs

def number? : List Char → Option (List Char)
  | '0' :: 'x' :: cs => based? 16 cs
  | '0' :: 'o' :: cs => based? 8 cs
  | '0' :: 'b' :: cs => based? 2 cs
  | cs =>
    let (negative, rest) := sign cs
    signed? negative rest

end DepGraph.Toml
