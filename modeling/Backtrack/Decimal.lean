import Backtrack.Text.Basic

/-!
Decimal texts of binary floating-point numbers. A finite number is written with the fewest digits
that read back as the same number, and of those with the digits nearest to it. Everything is
computed in natural numbers: a finite double is `mantissa * 2 ^ exponent`, and the reals that
round to it form an interval whose ends belong to it exactly when the mantissa is even.
-/

namespace Backtrack

/-- The number `coefficient * 10 ^ exponent`. -/
structure Decimal where
  coefficient : Nat
  exponent : Int
  deriving DecidableEq

namespace Decimal

/-- A positive finite double, `mantissa * 2 ^ exponent`. `atPowerOfTwo` says that the gap to the
next smaller double is half the gap to the next larger one. -/
structure Binary where
  mantissa : Nat
  exponent : Int
  atPowerOfTwo : Bool
  deriving DecidableEq

def Binary.ofFloat (x : Float) : Binary :=
  let bits : Nat := x.toBits.toNat
  let biased : Nat := bits / Nat.pow 2 52 % Nat.pow 2 11
  let fraction : Nat := bits % Nat.pow 2 52
  if biased = 0 then ⟨fraction, -1074, false⟩
  else ⟨fraction + Nat.pow 2 52, (biased : Int) - 1075, fraction = 0 && 1 < biased⟩

/-- Quotient and divisor that turn quarters of the last binary place into units of `10 ^ k`:
`n` quarters are `n * scale.1 / scale.2` such units. -/
def Binary.scale (b : Binary) (k : Int) : Nat × Nat :=
  (Nat.pow 2 (b.exponent - 2).toNat * Nat.pow 10 (-k).toNat,
    Nat.pow 2 (2 - b.exponent).toNat * Nat.pow 10 k.toNat)

def Binary.readsBack (b : Binary) (k : Int) (d : Nat) : Bool :=
  let (num, den) := b.scale k
  let low := (4 * b.mantissa - if b.atPowerOfTwo then 1 else 2) * num
  let high := (4 * b.mantissa + 2) * num
  if b.mantissa % 2 = 0 then low ≤ d * den && d * den ≤ high
  else low < d * den && d * den < high

/-- The multiple of `10 ^ k` next to `b` that reads back as `b`: the nearer one if both
neighbours do, and the even one if they are equally near. -/
def Binary.nearest? (b : Binary) (k : Int) : Option Nat :=
  let (num, den) := b.scale k
  let exact := 4 * b.mantissa * num
  let below := exact / den
  let remainder := exact % den
  let upFirst := den < 2 * remainder || (den = 2 * remainder && below % 2 = 1)
  let candidates := if upFirst then [below + 1, below] else [below, below + 1]
  candidates.find? (b.readsBack k)

def Binary.search (b : Binary) : Nat → Int → Decimal
  | 0, k => ⟨(b.nearest? k).getD 0, k⟩
  | steps + 1, k =>
    match b.nearest? k with
    | some d => ⟨d, k⟩
    | none => b.search steps (k - 1)

/-- The decimal with the fewest digits that reads back as `b`. The search starts above `b` and
ends below its seventeenth digit, where every double has a decimal of its own. -/
def Binary.shortest (b : Binary) : Decimal :=
  b.search 24 ((b.mantissa.log2 + 1 + b.exponent) * 30103 / 100000 + 2)

/-- Which decimal exponents are written without an exponent: from `plainFrom` on and below
`plainBelow`. -/
structure Style where
  plainFrom : Int
  plainBelow : Int
  deriving DecidableEq

/-- The text of a positive decimal. Plain notation always has a point, scientific notation only
between digits; its exponent always has a sign. -/
def toText (style : Style) (x : Decimal) : Text :=
  let digits := Text.ofNat x.coefficient
  let e := x.exponent + digits.length - 1
  if style.plainFrom ≤ e ∧ e < style.plainBelow then
    if 0 ≤ x.exponent then digits ++ List.replicate x.exponent.toNat '0' ++ ['.', '0']
    else if 0 ≤ e then digits.take (e.toNat + 1) ++ '.' :: digits.drop (e.toNat + 1)
    else '0' :: '.' :: List.replicate (-e - 1).toNat '0' ++ digits
  else
    let power := 'e' :: (if 0 ≤ e then '+' else '-') :: Text.ofNat e.natAbs
    match digits with
    | first :: second :: more => first :: '.' :: second :: more ++ power
    | _ => digits ++ power

def ofFloat? (style : Style) (x : Float) : Option Text :=
  if x.isFinite then
    let b := Binary.ofFloat x
    let digits := if b.mantissa = 0 then ['0', '.', '0'] else b.shortest.toText style
    some (if x.toBits.toNat / Nat.pow 2 63 = 1 then '-' :: digits else digits)
  else none

/-- The double nearest to the number written as an optional minus sign, digits, a point and
digits. -/
def read? (t : Text) : Option Float :=
  let digits := if t.head? = some '-' then t.drop 1 else t
  let whole := digits.takeWhile (·.isDigit)
  match digits.dropWhile (·.isDigit) with
  | '.' :: fraction =>
    if whole.isEmpty || fraction.isEmpty || !fraction.all (·.isDigit) then none
    else
      let x := Float.ofScientific (Text.digitsValue (whole ++ fraction)) true fraction.length
      some (if t.head? = some '-' then -x else x)
  | _ => none

end Decimal

end Backtrack
