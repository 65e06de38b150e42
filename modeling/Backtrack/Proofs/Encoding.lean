import Backtrack.Text.Utf8
import Mathlib.Tactic.Common

/-!
Texts and their bytes. A text that is stored as UTF-8 is read back as it was: the first byte of a
character says how many bytes there are, and together they hold its code.
-/

namespace Backtrack.Utf8

variable {a b c d : UInt8} {s : List UInt8} {x : Char} {n : ℕ}

/-! ### The bytes of a code -/

def tailByte (n : ℕ) : UInt8 := .ofNat (n % 0x40 + 0x80)

theorem isTail_tailByte (n : ℕ) : isTail (tailByte n) := by
  simp only [isTail, tailByte, Bool.and_eq_true, decide_eq_true_eq, UInt8.le_iff_toNat_le,
    UInt8.lt_iff_toNat_lt, UInt8.toNat_ofNat']
  change 0x80 ≤ _ ∧ _ < 0xc0
  omega

theorem tailBits_tailByte (n : ℕ) : tailBits (tailByte n) = n % 0x40 := by
  rw [tailBits, tailByte, UInt8.toNat_ofNat']
  omega

/-- A first byte carries the upper bits of a code behind the marks of its length. -/
theorem toNat_firstByte (h : n < 0x100) : (UInt8.ofNat n).toNat = n :=
  UInt8.toNat_ofNat_of_lt' h

theorem two?_eq (h1 : 0x80 ≤ n) (h2 : n < 0x800) :
    two? (.ofNat (n / 0x40 + 0xc0)) (tailByte n) = some (.ofNat n) := by
  have ha := toNat_firstByte (n := n / 0x40 + 0xc0) (by omega)
  rw [two?, if_pos, tailBits_tailByte, ha]
  · congr 2
    omega
  · rw [Bool.and_eq_true, Bool.and_eq_true, decide_eq_true_eq, decide_eq_true_eq,
      UInt8.le_iff_toNat_le, UInt8.lt_iff_toNat_lt, ha]
    change (0xc2 ≤ _ ∧ _ < 0xe0) ∧ _
    exact ⟨by omega, isTail_tailByte n⟩

theorem three?_eq (h1 : 0x800 ≤ n) (h2 : n < 0x10000) (hvalid : n < 0xd800 ∨ 0xe000 ≤ n) :
    three? (.ofNat (n / 0x1000 + 0xe0)) (tailByte (n / 0x40)) (tailByte n) =
      some (.ofNat n) := by
  have hlt : n / 0x1000 < 0x10 := by omega
  have ha := toNat_firstByte (n := n / 0x1000 + 0xe0) (by omega)
  have hn : ((n / 0x1000 + 0xe0) % 0x10 * 0x40 + n / 0x40 % 0x40) * 0x40 + n % 0x40 = n := by
    omega
  simp only [three?, tailBits_tailByte, ha, hn]
  rw [if_pos]
  simp only [Bool.and_eq_true, Bool.or_eq_true, decide_eq_true_eq, UInt8.le_iff_toNat_le,
    UInt8.lt_iff_toNat_lt, ha]
  change ((((0xe0 ≤ _ ∧ _ < 0xf0) ∧ _) ∧ _) ∧ _) ∧ _
  exact ⟨⟨⟨⟨⟨Nat.le_add_left .., Nat.add_lt_add_right hlt _⟩, isTail_tailByte _⟩,
    isTail_tailByte _⟩, h1⟩, hvalid⟩

theorem four?_eq (h1 : 0x10000 ≤ n) (h2 : n < 0x110000) :
    four? (.ofNat (n / 0x40000 + 0xf0)) (tailByte (n / 0x1000)) (tailByte (n / 0x40))
      (tailByte n) = some (.ofNat n) := by
  have hlt : n / 0x40000 < 0x8 := by omega
  have ha := toNat_firstByte (n := n / 0x40000 + 0xf0) (by omega)
  have hn : (((n / 0x40000 + 0xf0) % 0x8 * 0x40 + n / 0x1000 % 0x40) * 0x40 + n / 0x40 % 0x40) *
      0x40 + n % 0x40 = n := by
    omega
  simp only [four?, tailBits_tailByte, ha, hn]
  rw [if_pos]
  simp only [Bool.and_eq_true, decide_eq_true_eq, UInt8.le_iff_toNat_le, UInt8.lt_iff_toNat_lt, ha]
  change (((((0xf0 ≤ _ ∧ _ < 0xf8) ∧ _) ∧ _) ∧ _) ∧ _) ∧ _
  exact ⟨⟨⟨⟨⟨⟨Nat.le_add_left .., Nat.add_lt_add_right hlt _⟩, isTail_tailByte _⟩,
    isTail_tailByte _⟩, isTail_tailByte _⟩, h1⟩, h2⟩

/-! ### One character -/

theorem decode_of_first? (h : first? a s = some (x, n)) :
    decode (a :: s) = some x :: decode (s.drop n) := by
  rw [decode]
  split
  · rename_i heq
    rw [h] at heq
    cases heq
    rfl
  · rename_i heq
    rw [h] at heq
    cases heq

theorem first?_of_lt (h : n < 0x80) : first? (.ofNat n) s = some (.ofNat n, 0) := by
  have ha := toNat_firstByte (n := n) (by omega)
  rw [first?, if_pos, ha]
  rw [UInt8.lt_iff_toNat_lt, ha]
  exact h

theorem first?_eq_further? (ha : 0x80 ≤ n) (hn : n < 0x100) :
    first? (.ofNat n) s = first?.further? (.ofNat n) s := by
  refine if_neg fun h => ?_
  rw [UInt8.lt_iff_toNat_lt, toNat_firstByte hn] at h
  exact absurd ha (Nat.not_le_of_lt h)

theorem two?_eq_none (ha : 0xe0 ≤ n) (hn : n < 0x100) : two? (.ofNat n) b = none := by
  have h : ¬UInt8.ofNat n < 0xe0 := by
    rw [UInt8.lt_iff_toNat_lt, toNat_firstByte hn]
    exact Nat.not_lt_of_le ha
  simp [two?, h]

theorem three?_eq_none (ha : 0xf0 ≤ n) (hn : n < 0x100) : three? (.ofNat n) b c = none := by
  have h : ¬UInt8.ofNat n < 0xf0 := by
    rw [UInt8.lt_iff_toNat_lt, toNat_firstByte hn]
    exact Nat.not_lt_of_le ha
  simp [three?, h]

theorem first?_of_two? (ha : 0x80 ≤ n) (hn : n < 0x100)
    (h : two? (.ofNat n) b = some x) : first? (.ofNat n) (b :: s) = some (x, 1) := by
  rw [first?_eq_further? ha hn]
  rcases s with _ | ⟨c, _ | ⟨d, s⟩⟩ <;> simp [first?.further?, h]

theorem first?_of_three? (ha : 0xe0 ≤ n) (hn : n < 0x100)
    (h : three? (.ofNat n) b c = some x) : first? (.ofNat n) (b :: c :: s) = some (x, 2) := by
  rw [first?_eq_further? (Nat.le_trans (by decide) ha) hn]
  cases s <;> simp [first?.further?, two?_eq_none ha hn, h]

theorem first?_of_four? (ha : 0xf0 ≤ n) (hn : n < 0x100)
    (h : four? (.ofNat n) b c d = some x) :
    first? (.ofNat n) (b :: c :: d :: s) = some (x, 3) := by
  have he : 0xe0 ≤ n := Nat.le_trans (by decide) ha
  rw [first?_eq_further? (Nat.le_trans (by decide) ha) hn]
  simp [first?.further?, two?_eq_none he hn, three?_eq_none ha hn, h]

theorem decode_utf8EncodeChar_append (x : Char) (s : List UInt8) :
    decode (String.utf8EncodeChar x ++ s) = some x :: decode s := by
  have hvalid : x.toNat < 0xd800 ∨ 0xdfff < x.toNat ∧ x.toNat < 0x110000 := x.valid
  have hbytes : String.utf8EncodeChar x =
      if x.toNat ≤ 0x7f then [.ofNat x.toNat]
      else if x.toNat ≤ 0x7ff then [.ofNat (x.toNat / 0x40 % 0x20 + 0xc0), tailByte x.toNat]
      else if x.toNat ≤ 0xffff then
        [.ofNat (x.toNat / 0x1000 % 0x10 + 0xe0), tailByte (x.toNat / 0x40), tailByte x.toNat]
      else
        [.ofNat (x.toNat / 0x40000 % 0x08 + 0xf0), tailByte (x.toNat / 0x1000),
          tailByte (x.toNat / 0x40), tailByte x.toNat] := rfl
  rw [hbytes]
  split
  · have hfirst : first? (.ofNat x.toNat) s = some (x, 0) := by
      rw [first?_of_lt (by omega), Char.ofNat_toNat]
    exact decode_of_first? hfirst
  · split
    · rw [Nat.mod_eq_of_lt (by omega)]
      refine decode_of_first? (first?_of_two? (by omega) (by omega) ?_)
      rw [two?_eq (by omega) (by omega), Char.ofNat_toNat]
    · split
      · rw [Nat.mod_eq_of_lt (by omega)]
        refine decode_of_first? (first?_of_three? (by omega) (by omega) ?_)
        rw [three?_eq (by omega) (by omega) (by omega), Char.ofNat_toNat]
      · rw [Nat.mod_eq_of_lt (by omega)]
        refine decode_of_first? (first?_of_four? (by omega) (by omega) ?_)
        rw [four?_eq (by omega) (by omega), Char.ofNat_toNat]

theorem decode_encode (t : Text) : decode (encode t) = t.map some := by
  induction t with
  | nil => rw [encode, List.flatMap_nil, decode, List.map_nil]
  | cons c t ih =>
      rw [encode, List.flatMap_cons, decode_utf8EncodeChar_append, List.map_cons, ← ih]
      rfl

end Backtrack.Utf8
