import Backtrack.Text.Basic

/-!
Texts as they are stored. Bytes are read as UTF-8; a byte that is part of no character is kept as
a gap, so that a reader can decide what to do about it.
-/

namespace Backtrack

/-- A stored text: its characters, with `none` for every byte that belongs to no character. -/
abbrev Source := List (Option Char)

namespace Utf8

def encode (t : Text) : List UInt8 := t.flatMap String.utf8EncodeChar

def isTail (b : UInt8) : Bool := 0x80 ≤ b && b < 0xc0

def tailBits (b : UInt8) : Nat := b.toNat % 0x40

def two? (a b : UInt8) : Option Char :=
  if 0xc2 ≤ a && a < 0xe0 && isTail b then
    some (.ofNat (a.toNat % 0x20 * 0x40 + tailBits b))
  else none

/-- The character of three bytes, which is none that takes fewer bytes, and no surrogate. -/
def three? (a b c : UInt8) : Option Char :=
  let n := (a.toNat % 0x10 * 0x40 + tailBits b) * 0x40 + tailBits c
  if 0xe0 ≤ a && a < 0xf0 && isTail b && isTail c && 0x800 ≤ n && (n < 0xd800 || 0xe000 ≤ n) then
    some (.ofNat n)
  else none

def four? (a b c d : UInt8) : Option Char :=
  let n := ((a.toNat % 0x8 * 0x40 + tailBits b) * 0x40 + tailBits c) * 0x40 + tailBits d
  if 0xf0 ≤ a && a < 0xf8 && isTail b && isTail c && isTail d && 0x10000 ≤ n && n < 0x110000 then
    some (.ofNat n)
  else none

/-- The character that starts with the byte `a` and goes on in `s`, with the number of bytes that
it takes from `s`. -/
def first? (a : UInt8) (s : List UInt8) : Option (Char × Nat) :=
  if a < 0x80 then some (.ofNat a.toNat, 0) else further? s
where
  further? : List UInt8 → Option (Char × Nat)
    | [] => none
    | [b] => (two? a b).map (·, 1)
    | [b, c] => (two? a b).map (·, 1) <|> (three? a b c).map (·, 2)
    | b :: c :: d :: _ =>
      (two? a b).map (·, 1) <|> (three? a b c).map (·, 2) <|> (four? a b c d).map (·, 3)

/-- The characters of a sequence of bytes, and a gap for each byte that belongs to none. -/
def decode : List UInt8 → Source
  | [] => []
  | a :: s =>
    match first? a s with
    | some (c, n) => some c :: decode (s.drop n)
    | none => none :: decode s
termination_by bytes => bytes.length
decreasing_by all_goals simp; try omega

def text? (bytes : List UInt8) : Option Text := (decode bytes).mapM id

end Utf8

end Backtrack
