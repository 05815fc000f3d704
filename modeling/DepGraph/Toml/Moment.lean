import DepGraph.Toml.Number
import DepGraph.Value

/-!
# Moments of TOML

Dates, times of day, and both together with or without an offset from UTC. As data a moment is a
table of one field with a reserved name, which holds the moment in its normal form: a capital `T`
and `Z`, fractions of a second to nine places and without closing zeros.
-/

namespace DepGraph.Toml

structure Date where
  year : Nat
  month : Nat
  day : Nat
  deriving DecidableEq, Repr

structure Clock where
  hour : Nat
  minute : Nat
  second : Nat
  /-- Digits after the point, at most nine, the last not zero. -/
  fraction : List Char := []
  deriving DecidableEq, Repr

inductive Offset where
  | utc
  | minutes (east : Int)
  deriving DecidableEq, Repr

inductive Moment where
  | date (d : Date)
  | clock (t : Clock)
  | both (d : Date) (t : Clock) (offset : Option Offset)
  deriving DecidableEq, Repr

def isLeapYear (year : Nat) : Bool := year % 4 == 0 && (year % 100 != 0 || year % 400 == 0)

def daysIn (year month : Nat) : Nat :=
  if month = 2 then if isLeapYear year then 29 else 28
  else if month = 4 ∨ month = 6 ∨ month = 9 ∨ month = 11 then 30
  else 31

/-- A number of exactly `width` digits between two bounds. -/
def field? (width lo hi : Nat) (cs : List Char) : Option (Nat × List Char) :=
  let ds := cs.take width
  let n := numeral 10 ds
  if ds.length = width ∧ ds.all (isDigitOf 10) ∧ lo ≤ n ∧ n ≤ hi then some (n, cs.drop width)
  else none

def after? (c : Char) : List Char → Option (List Char)
  | [] => none
  | d :: rest => if d = c then some rest else none

def date? (cs : List Char) : Option (Date × List Char) := do
  let (year, cs) ← field? 4 0 9999 cs
  let cs ← after? '-' cs
  let (month, cs) ← field? 2 1 12 cs
  let cs ← after? '-' cs
  let (day, cs) ← field? 2 1 (daysIn year month) cs
  return (⟨year, month, day⟩, cs)

/-- Further places than nine are cut off, not rounded. -/
def secondFraction (cs : List Char) : List Char × List Char :=
  match cs with
  | '.' :: rest =>
    match rest.takeWhile (isDigitOf 10) with
    | [] => ([], cs)
    | ds => (((ds.take 9).reverse.dropWhile (· == '0')).reverse, rest.dropWhile (isDigitOf 10))
  | _ => ([], cs)

/-- A minute may have a leap second. -/
def clock? (cs : List Char) : Option (Clock × List Char) := do
  let (hour, cs) ← field? 2 0 23 cs
  let cs ← after? ':' cs
  let (minute, cs) ← field? 2 0 59 cs
  let cs ← after? ':' cs
  let (second, cs) ← field? 2 0 60 cs
  let (fraction, cs) := secondFraction cs
  return (⟨hour, minute, second, fraction⟩, cs)

def shift? (cs : List Char) : Option (Nat × List Char) := do
  let (hour, cs) ← field? 2 0 23 cs
  let cs ← after? ':' cs
  let (minute, cs) ← field? 2 0 59 cs
  return (60 * hour + minute, cs)

def offset? : List Char → Option (Offset × List Char)
  | 'Z' :: rest => some (.utc, rest)
  | 'z' :: rest => some (.utc, rest)
  | '+' :: rest => (shift? rest).map fun (m, rest) => (.minutes m, rest)
  | '-' :: rest => (shift? rest).map fun (m, rest) => (.minutes (-m), rest)
  | _ => none

/-- A time of day that follows a date after a `T` or a blank. -/
def dayTime? : List Char → Option (Clock × List Char)
  | [] => none
  | c :: rest => if c = 'T' ∨ c = 't' ∨ c = ' ' then clock? rest else none

def moment? (cs : List Char) : Option (Moment × List Char) :=
  match date? cs with
  | none => (clock? cs).map fun (t, rest) => (.clock t, rest)
  | some (d, rest) =>
    match dayTime? rest with
    | none => some (.date d, rest)
    | some (t, rest) =>
      match offset? rest with
      | none => some (.both d t none, rest)
      | some (o, rest) => some (.both d t (some o), rest)

def padded (width n : Nat) : String := "".pushn '0' (width - (toString n).length) ++ toString n

def Date.render (d : Date) : String :=
  padded 4 d.year ++ "-" ++ padded 2 d.month ++ "-" ++ padded 2 d.day

def Clock.render (t : Clock) : String :=
  padded 2 t.hour ++ ":" ++ padded 2 t.minute ++ ":" ++ padded 2 t.second ++
    if t.fraction.isEmpty then "" else "." ++ String.ofList t.fraction

/-- No offset at all is written with a plus, however it was entered. -/
def Offset.render : Offset → String
  | .utc => "Z"
  | .minutes east =>
    let m := east.natAbs
    (if east < 0 then "-" else "+") ++ padded 2 (m / 60) ++ ":" ++ padded 2 (m % 60)

namespace Moment

def render : Moment → String
  | .date d => d.render
  | .clock t => t.render
  | .both d t offset => d.render ++ "T" ++ t.render ++ (offset.map Offset.render).getD ""

def reservedName : String := "$__toml_private_datetime"

def toValue (m : Moment) : Value := .table [(reservedName, .text m.render)]

end Moment

end DepGraph.Toml
