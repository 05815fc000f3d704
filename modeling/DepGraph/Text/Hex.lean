/-!
# Hexadecimal text

Hexadecimal numbers, as escapes write characters.
-/

namespace DepGraph.Text

/-- Lower-case digits, as few as there can be. -/
def hex (n : Nat) : String := String.ofList (Nat.toDigits 16 n)

def hexDigit? (c : Char) : Option Nat :=
  if '0' ≤ c ∧ c ≤ '9' then some (c.toNat - '0'.toNat)
  else if 'a' ≤ c ∧ c ≤ 'f' then some (c.toNat - 'a'.toNat + 10)
  else if 'A' ≤ c ∧ c ≤ 'F' then some (c.toNat - 'A'.toNat + 10)
  else none

def hexValue? (digits : List Char) : Option Nat :=
  digits.foldlM (fun n c => (hexDigit? c).map (16 * n + ·)) 0

/-- The character with this code point; surrogates and numbers past the last have none. -/
def char? (n : Nat) : Option Char := if n.isValidChar then some (Char.ofNat n) else none

def hexChar? (digits : List Char) : Option Char := (hexValue? digits).bind char?

end DepGraph.Text
