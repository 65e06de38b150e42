import Backtrack.Json.Scan

/-!
Numbers of a JSON text, from behind a minus sign if there is one. Where a count is wanted, every
number is read, but only one that has neither point nor exponent and fits into 64 bits counts. A
number beyond the range of a double is refused there, while a skipped number may have any size.
-/

namespace Backtrack.Json

/-- The fault of a text that goes on with `s` where a digit is needed. -/
def noDigit (s : Source) : Fault := if s.isEmpty then .truncated else .malformed

/-- Appends digits to a number as long as 64 bits hold it. Also says how many were appended. -/
def fill (n : Nat) : Text → Nat × Nat
  | [] => (n, 0)
  | d :: ds =>
    let m := 10 * n + (d.toNat - '0'.toNat)
    if m < UInt64.size then
      let filled := fill m ds
      (filled.1, filled.2 + 1)
    else (n, 0)

/-- Whether `n * 10 ^ e` is beyond the range of a double. -/
def isHuge (n : Nat) (e : Int) : Bool :=
  if e < 0 then false
  else if e ≤ 308 then
    ((UInt64.ofNat n).toFloat * Float.ofScientific 1 false e.toNat).isInf
  else n != 0

/-- A number that is no count, unless it is too large. -/
def noCount (n : Nat) (e : Int) (s : Source) : Except Fault (Option UInt64 × Source) :=
  if isHuge n e then .error .malformed else .ok (none, s)

def maxExponent : Nat := Nat.pow 2 31 - 1

/-- A number `n * 10 ^ e` from behind the letter of its exponent. -/
def withExponent (n : Nat) (e : Int) (s : Source) : Except Fault (Option UInt64 × Source) :=
  let negative := s.head? = some (some '-')
  let s := if negative || s.head? = some (some '+') then s.tail else s
  let x := Text.digitsValue (leadingDigits s)
  if (leadingDigits s).isEmpty then .error (noDigit s)
  else if maxExponent < x then
    if n != 0 && !negative then .error .malformed else .ok (none, skipDigits s)
  else noCount n (if negative then e - x else e + x) (skipDigits s)

def withFraction (n : Nat) (e : Int) (s : Source) : Except Fault (Option UInt64 × Source) :=
  let filled := fill n (leadingDigits s)
  if (leadingDigits s).isEmpty then .error (noDigit s)
  else
    match skipDigits s with
    | some 'e' :: s => withExponent filled.1 (e - filled.2) s
    | some 'E' :: s => withExponent filled.1 (e - filled.2) s
    | s => noCount filled.1 (e - filled.2) s

/-- A number. Gives the count that it denotes, if it denotes one. -/
def readNumber (s : Source) : Except Fault (Option UInt64 × Source) :=
  match leadingDigits s with
  | [] => .error (noDigit s)
  | '0' :: _ :: _ => .error .malformed
  | ds =>
    let filled := fill 0 ds
    let e : Int := ds.length - filled.2
    match skipDigits s with
    | some '.' :: s => withFraction filled.1 e s
    | some 'e' :: s => withExponent filled.1 e s
    | some 'E' :: s => withExponent filled.1 e s
    | s => if e = 0 then .ok (some (UInt64.ofNat filled.1), s) else noCount filled.1 e s

def skipDigits1 (s : Source) : Except Fault Source :=
  if (leadingDigits s).isEmpty then .error .malformed else .ok (skipDigits s)

def skipExponent (s : Source) : Except Fault Source :=
  match s with
  | some 'e' :: s => skipDigits1 (unsigned s)
  | some 'E' :: s => skipDigits1 (unsigned s)
  | s => .ok s
where
  unsigned (s : Source) : Source :=
    if s.head? = some (some '-') || s.head? = some (some '+') then s.tail else s

def skipNumber (s : Source) : Except Fault Source :=
  match leadingDigits s with
  | [] => .error .malformed
  | '0' :: _ :: _ => .error .malformed
  | _ =>
    match skipDigits s with
    | some '.' :: s =>
      match skipDigits1 s with
      | .error fault => .error fault
      | .ok s => skipExponent s
    | s => skipExponent s

theorem length_noCount_le {n : Nat} {e : Int} {s r : Source} {x : Option UInt64}
    (h : noCount n e s = .ok (x, r)) : r.length ≤ s.length := by
  unfold noCount at h
  split at h
  · cases h
  · cases h
    exact Nat.le_refl _

theorem length_withExponent_le {n : Nat} {e : Int} {s r : Source} {x : Option UInt64}
    (h : withExponent n e s = .ok (x, r)) : r.length ≤ s.length := by
  unfold withExponent at h
  extract_lets negative t m at h
  have ht : t.length ≤ s.length := by
    unfold t
    split <;> simp
  refine Nat.le_trans ?_ ht
  split at h
  · cases h
  · split at h
    · split at h
      · cases h
      · cases h
        exact length_skipDigits_le t
    · exact Nat.le_trans (length_noCount_le h) (length_skipDigits_le t)

theorem length_withFraction_le {n : Nat} {e : Int} {s r : Source} {x : Option UInt64}
    (h : withFraction n e s = .ok (x, r)) : r.length ≤ s.length := by
  have hd := length_skipDigits_le s
  unfold withFraction at h
  extract_lets filled at h
  split at h
  · cases h
  · split at h
    · next heq =>
      rw [heq] at hd
      exact Nat.le_trans (Nat.le_succ_of_le (length_withExponent_le h)) hd
    · next heq =>
      rw [heq] at hd
      exact Nat.le_trans (Nat.le_succ_of_le (length_withExponent_le h)) hd
    · exact Nat.le_trans (length_noCount_le h) hd

theorem length_readNumber_le {s r : Source} {x : Option UInt64}
    (h : readNumber s = .ok (x, r)) : r.length ≤ s.length := by
  have hd := length_skipDigits_le s
  unfold readNumber at h
  split at h
  · cases h
  · cases h
  · extract_lets filled e at h
    split at h
    · next heq =>
      rw [heq] at hd
      exact Nat.le_trans (Nat.le_succ_of_le (length_withFraction_le h)) hd
    · next heq =>
      rw [heq] at hd
      exact Nat.le_trans (Nat.le_succ_of_le (length_withExponent_le h)) hd
    · next heq =>
      rw [heq] at hd
      exact Nat.le_trans (Nat.le_succ_of_le (length_withExponent_le h)) hd
    · split at h
      · cases h
        exact hd
      · exact Nat.le_trans (length_noCount_le h) hd

theorem length_skipDigits1_le {s r : Source} (h : skipDigits1 s = .ok r) :
    r.length ≤ s.length := by
  unfold skipDigits1 at h
  split at h
  · cases h
  · cases h
    exact length_skipDigits_le s

theorem length_unsigned_le (s : Source) : (skipExponent.unsigned s).length ≤ s.length := by
  unfold skipExponent.unsigned
  split <;> simp

theorem length_skipExponent_le {s r : Source} (h : skipExponent s = .ok r) :
    r.length ≤ s.length := by
  unfold skipExponent at h
  split at h
  · exact Nat.le_succ_of_le (Nat.le_trans (length_skipDigits1_le h) (length_unsigned_le _))
  · exact Nat.le_succ_of_le (Nat.le_trans (length_skipDigits1_le h) (length_unsigned_le _))
  · cases h
    exact Nat.le_refl _

theorem length_skipDigits_lt {s : Source} (h : leadingDigits s ≠ []) :
    (skipDigits s).length < s.length := by
  cases s with
  | nil => exact absurd rfl h
  | cons c s =>
    by_cases hc : isDigit c
    · simpa [skipDigits, hc] using Nat.lt_succ_of_le (length_skipDigits_le s)
    · exact absurd (by simp [leadingDigits, hc]) h

theorem length_skipNumber_lt {s r : Source} (h : skipNumber s = .ok r) :
    r.length < s.length := by
  unfold skipNumber at h
  split at h
  · cases h
  · cases h
  · next hne _ =>
    have hd := length_skipDigits_lt hne
    split at h
    · next heq =>
      rw [heq] at hd
      split at h
      · cases h
      · next h1 =>
        have h2 := length_skipDigits1_le h1
        have h3 := length_skipExponent_le h
        simp only [List.length_cons] at hd
        omega
    · exact Nat.lt_of_le_of_lt (length_skipExponent_le h) hd

end Backtrack.Json
