import SqlQuery.Text.Basic

/-!
# Decimal numbers

Numbers are written with the fewest digits.  They are read from any non-empty run of digits, so
leading zeros are accepted and signs are not.
-/

namespace SqlQuery.Text

def isDigit (b : UInt8) : Bool := 48 ≤ b && b ≤ 57

/-- The byte of a digit below ten. -/
def digit (d : Nat) : UInt8 := UInt8.ofNat (48 + d)

/-- The decimal text of a number, without leading zeros. -/
def ofNat (n : Nat) : Text :=
  if n < 10 then [digit n] else ofNat (n / 10) ++ [digit (n % 10)]

/-- The value of a run of digits, the most significant first. -/
def digitsValue (t : Text) : Nat := t.foldl (fun n b => 10 * n + (b.toNat - 48)) 0

/-- The number that a text writes in decimal: one or more digits with a value below `2 ^ 64`. -/
def toUInt64? (t : Text) : Option UInt64 :=
  if !t.isEmpty && t.all isDigit && digitsValue t < UInt64.size then
    some (UInt64.ofNat (digitsValue t))
  else
    none

end SqlQuery.Text
