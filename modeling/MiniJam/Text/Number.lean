import MiniJam.Word

/-!
# Decimal numbers
-/

namespace MiniJam.Text

def natOfDigits (digits : List Char) : Nat :=
  digits.foldl (fun n c => n * 10 + (c.toNat - 48)) 0

def nat? (digits : List Char) : Option Nat :=
  if digits.isEmpty || !digits.all Char.isDigit then none else some (natOfDigits digits)

/-- The 64-bit integer that a text stands for: decimal digits, with or without a sign. -/
def int64? (s : String) : Option Int := do
  let n : Int ← match s.toList with
    | '-' :: digits => (nat? digits).map fun n => -(n : Int)
    | '+' :: digits => (nat? digits).map Int.ofNat
    | digits => (nat? digits).map Int.ofNat
  if minInt64 ≤ n ∧ n ≤ maxInt64 then some n else none

end MiniJam.Text
