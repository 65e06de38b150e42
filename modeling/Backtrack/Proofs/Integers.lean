import Backtrack.Text.Integer
import Mathlib.Data.Nat.Digits.Defs

/-!
Which texts write which integers: an optional minus sign and one or more decimal digits, where
leading zeros do not count. The readers find exactly the integer that is written, as far as it fits
into the type that they read.
-/

namespace Backtrack.Text

def decimalValue (digits : Text) : ℕ :=
  Nat.ofDigits 10 (digits.reverse.map fun c => c.toNat - '0'.toNat)

inductive WritesInt : Text → ℤ → Prop
  | plain {digits : Text} (hne : digits ≠ []) (h : ∀ c ∈ digits, c.isDigit) :
      WritesInt digits (decimalValue digits)
  | minus {digits : Text} (hne : digits ≠ []) (h : ∀ c ∈ digits, c.isDigit) :
      WritesInt ('-' :: digits) (-decimalValue digits)

/-- An integer of 64 bits, written with an optional minus sign and digits. -/
structure WritesInt64 (s : Text) (n : ℤ) : Prop where
  writes : WritesInt s n
  le : -2 ^ 63 ≤ n
  lt : n < 2 ^ 63

theorem WritesInt.exists_digits {s : Text} {n : ℤ} (h : WritesInt s n) :
    ∃ digits : Text, (digits ≠ [] ∧ ∀ c ∈ digits, c.isDigit) ∧
      (digits = s ∨ '-' :: digits = s) := by
  cases h with
  | plain hne h => exact ⟨s, ⟨hne, h⟩, .inl rfl⟩
  | @minus digits hne h => exact ⟨digits, ⟨hne, h⟩, .inr rfl⟩

/-! ### Reading -/

theorem digitsValue_eq (digits : Text) : digitsValue digits = decimalValue digits := by
  rw [digitsValue, decimalValue, Nat.ofDigits_eq_foldr, List.foldr_map, List.foldr_reverse]
  simp only [Nat.cast_id, Nat.add_comm]

theorem isDigits_iff {digits : Text} :
    isDigits digits ↔ digits ≠ [] ∧ ∀ c ∈ digits, c.isDigit := by
  simp [isDigits]

theorem readInt?_eq_some_iff {s : Text} {n : ℤ} : readInt? s = some n ↔ WritesInt s n := by
  constructor
  · intro h
    unfold readInt? at h
    split at h
    · obtain ⟨hdigits, ⟨⟩⟩ := Option.ite_none_right_eq_some.mp h
      rw [digitsValue_eq]
      exact .minus (isDigits_iff.mp hdigits).1 (isDigits_iff.mp hdigits).2
    · obtain ⟨hdigits, ⟨⟩⟩ := Option.ite_none_right_eq_some.mp h
      rw [digitsValue_eq]
      exact .plain (isDigits_iff.mp hdigits).1 (isDigits_iff.mp hdigits).2
  · intro h
    cases h with
    | plain hne hall =>
        unfold readInt?
        split
        · exact absurd (hall '-' List.mem_cons_self) Bool.false_ne_true
        · rw [if_pos (isDigits_iff.mpr ⟨hne, hall⟩), digitsValue_eq]
    | minus hne hall =>
        rw [readInt?, if_pos (isDigits_iff.mpr ⟨hne, hall⟩), digitsValue_eq]

theorem readInt64?_eq_some_iff {s : Text} {m : Int64} :
    readInt64? s = some m ↔ WritesInt64 s m.toInt := by
  rw [readInt64?, Int64.toInt_minValue, Int64.toInt_maxValue]
  constructor
  · intro h
    split at h
    · rename_i n hread
      obtain ⟨⟨hle, hlt⟩, ⟨⟩⟩ := Option.ite_none_right_eq_some.mp h
      have hlt : n < 2 ^ 63 := Int.lt_of_le_sub_one hlt
      rw [Int64.toInt_ofInt_of_le hle hlt]
      exact ⟨readInt?_eq_some_iff.mp hread, hle, hlt⟩
    · cases h
  · intro h
    rw [readInt?_eq_some_iff.mpr h.writes]
    dsimp only
    rw [if_pos ⟨h.le, Int.le_sub_one_of_lt h.lt⟩, Int64.ofInt_toInt]

example : readInt64? ['-', '0', '7'] = some (-7) ∧ readInt64? ['+', '7'] = none := by decide

theorem WritesInt64.exists_toInt {s : Text} {n : ℤ} (h : WritesInt64 s n) :
    ∃ m : Int64, WritesInt64 s m.toInt ∧ m.toInt = n :=
  ⟨.ofInt n, by rwa [Int64.toInt_ofInt_of_le h.le h.lt], Int64.toInt_ofInt_of_le h.le h.lt⟩

/-! ### Writing -/

theorem decimalValue_ofNat (n : ℕ) : decimalValue (ofNat n) = n := by
  rw [← digitsValue_eq, digitsValue, ← Nat.ofDigitChars_eq_foldl]
  exact Nat.ofDigitChars_ten_toDigits

theorem isDigit_of_mem_ofNat {n : ℕ} {c : Char} (h : c ∈ ofNat n) : c.isDigit :=
  Nat.isDigit_of_mem_toDigits (by decide) (by decide) h

theorem writesInt_ofInt (n : ℤ) : WritesInt (ofInt n) n := by
  cases n with
  | ofNat n =>
      have h : WritesInt (ofNat n) (decimalValue (ofNat n)) :=
        .plain Nat.toDigits_ne_nil fun c => isDigit_of_mem_ofNat
      rwa [decimalValue_ofNat] at h
  | negSucc n =>
      have h : WritesInt ('-' :: ofNat (n + 1)) (-decimalValue (ofNat (n + 1))) :=
        .minus Nat.toDigits_ne_nil fun c => isDigit_of_mem_ofNat
      rwa [decimalValue_ofNat] at h

theorem writesInt64_ofInt (m : Int64) : WritesInt64 (ofInt m.toInt) m.toInt :=
  ⟨writesInt_ofInt m.toInt, m.le_toInt, m.toInt_lt⟩

end Backtrack.Text
