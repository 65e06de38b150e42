/-!
Texts are lists of characters, so what a parser leaves over is literally a tail of what it was
given. Offsets and lengths that leave the library count the bytes of the UTF-8 encoding.
-/

namespace Backtrack

abbrev Text := List Char

namespace Text

/-- Number of bytes of the UTF-8 encoding. -/
def byteLength (t : Text) : Nat := t.foldr (fun c n => c.utf8Size + n) 0

@[simp] theorem byteLength_nil : byteLength [] = 0 := rfl

@[simp] theorem byteLength_cons (c : Char) (t : Text) :
    byteLength (c :: t) = c.utf8Size + byteLength t := rfl

@[simp] theorem byteLength_append (s t : Text) :
    byteLength (s ++ t) = byteLength s + byteLength t := by
  induction s with
  | nil => simp
  | cons c s ih => simp [ih, Nat.add_assoc]

@[simp] theorem byteLength_eq_zero {t : Text} : byteLength t = 0 ↔ t = [] := by
  cases t with
  | nil => simp
  | cons c t =>
    have := c.utf8Size_pos
    simp only [byteLength_cons, reduceCtorEq, iff_false]
    omega

theorem byteLength_le_of_suffix {s t : Text} (h : s <:+ t) : byteLength s ≤ byteLength t := by
  obtain ⟨taken, rfl⟩ := h
  rw [byteLength_append]
  exact Nat.le_add_left ..

def ofNat (n : Nat) : Text := Nat.toDigits 10 n

/-- The decimal text of an integer, with a sign only when it is negative. -/
def ofInt : Int → Text
  | .ofNat n => ofNat n
  | .negSucc n => '-' :: ofNat (n + 1)

/-- The number that a run of decimal digits denotes, most significant digit first. -/
def digitsValue (digits : Text) : Nat :=
  digits.foldl (fun n c => 10 * n + (c.toNat - '0'.toNat)) 0

end Text

end Backtrack
