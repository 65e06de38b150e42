import Backtrack.Text.Basic

/-!
Numbers written in texts: signed 64-bit integers and unsigned 64-bit counts. Only ASCII digits
count as digits, and a number that does not fit is no number.
-/

namespace Backtrack.Text

def isDigits (t : Text) : Bool := !t.isEmpty && t.all Char.isDigit

def readInt? : Text → Option Int
  | '-' :: digits => if isDigits digits then some (-(digitsValue digits : Int)) else none
  | digits => if isDigits digits then some (digitsValue digits : Int) else none

def readInt64? (t : Text) : Option Int64 :=
  match readInt? t with
  | some n =>
    if Int64.minValue.toInt ≤ n ∧ n ≤ Int64.maxValue.toInt then some (Int64.ofInt n) else none
  | none => none

/-- The count written as an optional plus sign and digits. -/
def readCount? (t : Text) : Option UInt64 :=
  let digits := if t.head? = some '+' then t.drop 1 else t
  if isDigits digits && digitsValue digits < UInt64.size then
    some (UInt64.ofNat (digitsValue digits))
  else none

end Backtrack.Text
