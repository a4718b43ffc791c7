/-!
# Decimal numerals
-/

namespace Kennel.Text

/-- The value of a run of decimal digits, leading zeros allowed. -/
def digitsValue (ds : List Char) : Nat :=
  ds.foldl (fun n d => 10 * n + (d.toNat - '0'.toNat)) 0

/-- At least one character, and ASCII digits only. -/
def isNumeral (s : String) : Bool :=
  !s.toList.isEmpty && s.toList.all Char.isDigit

/-- Read an unsigned numeral. -/
def readNumeral (s : String) : Option Nat :=
  if isNumeral s then some (digitsValue s.toList) else none

/-- Write a natural number. -/
def numeral (n : Nat) : String := n.repr

/-- Write an integer. -/
def signed : Int → String
  | .ofNat n => numeral n
  | .negSucc n => "-" ++ numeral (n + 1)

end Kennel.Text
