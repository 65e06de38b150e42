import Mathlib

/-!
Which decimals are finite doubles. A quotient is rounded to 53 binary digits by dropping the digits
behind them and perhaps adding one; the exponent says how many are dropped, and a double is finite
as long as it does not exceed the greatest one, 971. So a number is rounded to infinity if and only
if it lies at least half a step beyond the greatest double.
-/

namespace Backtrack.Double

open Float.Model Float.Model.UnpackedFloat

/-! ### Rounding a mantissa -/

theorem mantissa_shiftRight (em : ExtendedMantissa) (n : ℕ) :
    (em >>> n).mantissa = em.mantissa / 2 ^ n := by
  induction n with
  | zero => exact (Nat.div_one em.mantissa).symm
  | succ n ih =>
      change (em >>> n).mantissa / 2 = em.mantissa / 2 ^ (n + 1)
      rw [ih, Nat.div_div_eq_div_mul, Nat.pow_succ]

/-- The round bit is the last digit that was dropped. -/
theorem roundBit_shiftRight_succ (em : ExtendedMantissa) (n : ℕ) :
    (em >>> (n + 1)).roundBit = (em.mantissa / 2 ^ n % 2 != 0) := by
  change ((em >>> n).mantissa % 2 != 0) = _
  rw [mantissa_shiftRight]

theorem mantissa_ofMantissaAndAccuracy (m : ℕ) (a : Accuracy) :
    (ExtendedMantissa.ofMantissaAndAccuracy m a).mantissa = m := by
  rcases a with _ | _ | _ | _ <;> rfl

theorem roundedMantissa_of_not_roundBit {em : ExtendedMantissa} (h : em.roundBit = false) :
    em.roundedMantissa = em.mantissa := by
  obtain ⟨m, _ | _, _ | _⟩ := em
  · rfl
  · rfl
  · cases h
  · cases h

theorem le_roundedMantissa (em : ExtendedMantissa) : em.mantissa ≤ em.roundedMantissa := by
  obtain ⟨m, _ | _, _ | _⟩ := em
  · exact le_rfl
  · exact le_rfl
  · exact Nat.le_add_right m (m % 2)
  · exact Nat.le_succ m

theorem roundedMantissa_le (em : ExtendedMantissa) : em.roundedMantissa ≤ em.mantissa + 1 := by
  obtain ⟨m, _ | _, _ | _⟩ := em
  · exact Nat.le_succ m
  · exact Nat.le_succ m
  · exact Nat.add_le_add_left (Nat.lt_succ_iff.mp (Nat.mod_lt m Nat.two_pos)) m
  · exact le_rfl

/-- With the round bit set, an odd mantissa is rounded up, also halfway between two. -/
theorem roundedMantissa_of_roundBit {em : ExtendedMantissa} (h : em.roundBit = true)
    (hodd : em.mantissa % 2 = 1) : em.roundedMantissa = em.mantissa + 1 := by
  obtain ⟨m, _ | _, _ | _⟩ := em
  · cases h
  · cases h
  · exact congrArg (m + ·) hodd
  · rfl

/-! ### Rounding to doubles -/

theorem log2_le_of_lt {m n : ℕ} (h : m < 2 ^ (n + 1)) : m.log2 ≤ n := by
  by_cases hzero : m = 0
  · rw [hzero]
    exact Nat.zero_le n
  · exact Nat.lt_succ_iff.mp ((Nat.log2_lt hzero).mpr h)

def dropped (m : ℕ) (e : ℤ) : ℕ :=
  (Format.binary64.targetExponent (totalExponent m e) - e).toNat

/-- The mantissa behind the first rounding, which may have a digit too many. -/
def rounded (m : ℕ) (e : ℤ) (a : Accuracy) : ℕ :=
  (ExtendedMantissa.ofMantissaAndAccuracy m a >>> dropped m e).roundedMantissa

theorem dropped_eq (m : ℕ) (e : ℤ) :
    dropped m e = max (max ((m.log2 : ℤ) - 52) (-1074 - e)) 0 := by
  have htarget : Format.binary64.targetExponent (totalExponent m e) =
      max ((m.log2 : ℤ) + 1 + e - 53) (-1074) := rfl
  rw [dropped, htarget]
  omega

theorem rounded_bounds (m : ℕ) (e : ℤ) (a : Accuracy) :
    m / 2 ^ dropped m e ≤ rounded m e a ∧ rounded m e a ≤ m / 2 ^ dropped m e + 1 := by
  have hle := le_roundedMantissa (ExtendedMantissa.ofMantissaAndAccuracy m a >>> dropped m e)
  have hge := roundedMantissa_le (ExtendedMantissa.ofMantissaAndAccuracy m a >>> dropped m e)
  rw [mantissa_shiftRight, mantissa_ofMantissaAndAccuracy] at hle hge
  exact ⟨hle, hge⟩

theorem div_dropped_lt (m : ℕ) (e : ℤ) : m / 2 ^ dropped m e < 2 ^ 53 := by
  have hdropped := dropped_eq m e
  rw [Nat.div_lt_iff_lt_mul (Nat.two_pow_pos _), ← Nat.pow_add]
  exact Nat.lt_log2_self.trans_le (Nat.pow_le_pow_right Nat.two_pos (by omega))

theorem rounded_le (m : ℕ) (e : ℤ) (a : Accuracy) : rounded m e a ≤ 2 ^ 53 :=
  (rounded_bounds m e a).2.trans (div_dropped_lt m e)

theorem shiftToTargetExponent_eq (m : ℕ) (e : ℤ) (a : Accuracy) :
    shiftToTargetExponent Format.binary64 m e a =
      (ExtendedMantissa.ofMantissaAndAccuracy m a >>> dropped m e, e + dropped m e) := rfl

theorem dropped_eq_zero {m : ℕ} {e : ℤ} (hm : m < 2 ^ 53) (he : -1074 ≤ e) : dropped m e = 0 := by
  have hdropped := dropped_eq m e
  have hlog := log2_le_of_lt hm
  omega

theorem dropped_two_pow {e : ℤ} (he : -1074 ≤ e) : dropped (2 ^ 53) e = 1 := by
  have hdropped := dropped_eq (2 ^ 53) e
  rw [Nat.log2_two_pow] at hdropped
  omega

/-- If rounding adds a digit, the mantissa is a power of two, and its last digit is dropped. -/
theorem roundWithAccuracy_eq (s : Sign) (m : ℕ) (e : ℤ) (a : Accuracy) :
    roundWithAccuracy Format.binary64 s m e a =
      if h : rounded m e a = 0 then .zero s
      else if rounded m e a < 2 ^ 53 then
        .finite s (rounded m e a) (e + dropped m e) (Nat.pos_of_ne_zero h)
      else .finite s (2 ^ 52) (e + dropped m e + 1) (Nat.two_pow_pos 52) := by
  have hmin : -1074 ≤ e + dropped m e := by
    have hdropped := dropped_eq m e
    omega
  have hrounded : (ExtendedMantissa.ofMantissaAndAccuracy m a >>> dropped m e).roundedMantissa =
      rounded m e a := rfl
  simp only [roundWithAccuracy, shiftToTargetExponent_eq, mantissa_shiftRight,
    mantissa_ofMantissaAndAccuracy, hrounded]
  rcases (rounded_le m e a).lt_or_eq with hlt | heq
  · simp only [dropped_eq_zero hlt hmin, hlt, if_true, Nat.pow_zero, Nat.div_one, Nat.cast_zero,
      add_zero]
  · simp only [heq, dropped_two_pow hmin]
    rfl

/-! ### Where the doubles end -/

def ExponentAtMost (c : ℤ) : UnpackedFloat → Prop
  | .zero _ => True
  | .finite _ _ e _ => e ≤ c
  | _ => False

/-- The least number that is rounded to infinity. It lies halfway between the greatest double, which
is `(2 ^ 53 - 1) * 2 ^ 971`, and the power of two behind it. -/
def overflowBound : ℕ := (2 ^ 54 - 1) * 2 ^ 970

theorem overflowBound_mul (k : ℕ) : overflowBound * 2 ^ k = (2 ^ 54 - 1) * 2 ^ (970 + k) := by
  rw [overflowBound, Nat.mul_assoc, ← Nat.pow_add]

theorem two_pow_le_overflowBound_mul (k : ℕ) : 2 ^ (1023 + k) ≤ overflowBound * 2 ^ k := by
  have hsplit : 2 ^ (1023 + k) = 2 ^ 53 * 2 ^ (970 + k) := by
    rw [← Nat.pow_add]
    congr 1
    omega
  rw [overflowBound_mul, hsplit]
  exact Nat.mul_le_mul_right _ (by decide)

theorem overflowBound_mul_le (k : ℕ) : overflowBound * 2 ^ k ≤ 2 ^ (1024 + k) := by
  have hsplit : 2 ^ (1024 + k) = 2 ^ 54 * 2 ^ (970 + k) := by
    rw [← Nat.pow_add]
    congr 1
    omega
  rw [overflowBound_mul, hsplit]
  exact Nat.mul_le_mul_right _ (by decide)

theorem two_pow_le_overflowBound : 2 ^ 53 ≤ overflowBound := by
  have hle : 2 ^ 53 ≤ 2 ^ 54 - 1 := by decide
  have hpos : 0 < 2 ^ 970 := pow_pos Nat.two_pos 970
  rw [overflowBound]
  exact hle.trans (Nat.le_mul_of_pos_right (2 ^ 54 - 1) hpos)

theorem overflowBound_pos : 0 < overflowBound :=
  (Nat.two_pow_pos 53).trans_le two_pow_le_overflowBound

-- No proof below should work this number out.
attribute [irreducible] overflowBound

variable {s : Sign} {m k : ℕ} {a : Accuracy}

theorem exponentAtMost_roundWithAccuracy {c e : ℤ} :
    ExponentAtMost c (roundWithAccuracy Format.binary64 s m e a) ↔
      rounded m e a = 0 ∨ (rounded m e a < 2 ^ 53 ∧ e + dropped m e ≤ c) ∨
        (rounded m e a = 2 ^ 53 ∧ e + dropped m e + 1 ≤ c) := by
  have hle := rounded_le m e a
  rw [roundWithAccuracy_eq]
  split
  · rename_i hzero
    exact iff_of_true trivial (.inl hzero)
  · split
    · rename_i hne hlt
      change _ ≤ c ↔ _
      omega
    · rename_i hne hge
      change _ ≤ c ↔ _
      omega

theorem exponentAtMost_of_lt (c : ℕ) (h : m < 2 ^ (52 + c + k + 1)) :
    ExponentAtMost (c + 1) (roundWithAccuracy Format.binary64 s m (-k) a) := by
  have hlog := log2_le_of_lt h
  have hdropped := dropped_eq m (-k)
  have hle := rounded_le m (-k) a
  rw [exponentAtMost_roundWithAccuracy]
  omega

theorem not_exponentAtMost_of_le (h : 2 ^ (1024 + k) ≤ m) :
    ¬ExponentAtMost 971 (roundWithAccuracy Format.binary64 s m (-k) a) := by
  have hzero : m ≠ 0 := (Nat.two_pow_pos _).trans_le h |>.ne'
  have hlog : 1024 + k ≤ m.log2 := (Nat.le_log2 hzero).mpr h
  have hdropped := dropped_eq m (-k)
  have hpos : 0 < m / 2 ^ dropped m (-k) := by
    refine Nat.div_pos (le_trans ?_ (Nat.log2_self_le hzero)) (Nat.two_pow_pos _)
    exact Nat.pow_le_pow_right Nat.two_pos (by omega)
  have hbounds := rounded_bounds m (-k) a
  rw [exponentAtMost_roundWithAccuracy]
  omega

/-- With exactly one digit too many, the greatest mantissa is rounded up if the last digit is set,
halfway or not. -/
theorem rounded_lt_iff {e : ℤ} {n : ℕ} (hdropped : dropped m e = n + 1)
    (hlt : m / 2 ^ n < 2 ^ 54) : rounded m e a < 2 ^ 53 ↔ m / 2 ^ n < 2 ^ 54 - 1 := by
  let em := ExtendedMantissa.ofMantissaAndAccuracy m a
  have hbit : (em >>> (n + 1)).roundBit = (m / 2 ^ n % 2 != 0) := by
    rw [roundBit_shiftRight_succ, mantissa_ofMantissaAndAccuracy]
  have hmantissa : (em >>> (n + 1)).mantissa = m / 2 ^ n / 2 := by
    rw [mantissa_shiftRight, mantissa_ofMantissaAndAccuracy, Nat.div_div_eq_div_mul, Nat.pow_succ]
  have hrounded : rounded m e a = (em >>> (n + 1)).roundedMantissa := by rw [rounded, hdropped]
  have hle := roundedMantissa_le (em >>> (n + 1))
  rw [hrounded]
  rw [hmantissa] at hle
  generalize m / 2 ^ n = q at *
  rcases Nat.mod_two_eq_zero_or_one q with heven | hodd
  · have hkept : (em >>> (n + 1)).roundedMantissa = q / 2 := by
      rw [roundedMantissa_of_not_roundBit (by rw [hbit, heven]; rfl), hmantissa]
    omega
  · by_cases hlast : q = 2 ^ 54 - 1
    · have hup : (em >>> (n + 1)).roundedMantissa = 2 ^ 53 := by
        rw [roundedMantissa_of_roundBit (by rw [hbit, hodd]; rfl) (by omega), hmantissa]
        omega
      omega
    · omega

/-- Between the powers of two around it the bound is where rounding adds a digit. -/
theorem exponentAtMost_iff_of_log2_eq (h : m.log2 = 1023 + k) :
    ExponentAtMost 971 (roundWithAccuracy Format.binary64 s m (-k) a) ↔
      m < overflowBound * 2 ^ k := by
  have hdropped : dropped m (-k) = 970 + k + 1 := by
    have hdropped := dropped_eq m (-k)
    omega
  have hlow : 2 ^ 53 ≤ m / 2 ^ (970 + k) := by
    have hzero : m ≠ 0 := by
      rintro rfl
      rw [Nat.log2_zero] at h
      omega
    rw [Nat.le_div_iff_mul_le (Nat.two_pow_pos _), ← Nat.pow_add, ← Nat.le_log2 hzero]
    omega
  have hhigh : m / 2 ^ (970 + k) < 2 ^ 54 := by
    rw [Nat.div_lt_iff_lt_mul (Nat.two_pow_pos _), ← Nat.pow_add]
    exact Nat.lt_log2_self.trans_le (Nat.pow_le_pow_right Nat.two_pos (by omega))
  have hbounds := rounded_bounds m (-k) a
  rw [hdropped, Nat.pow_succ, ← Nat.div_div_eq_div_mul] at hbounds
  rw [exponentAtMost_roundWithAccuracy, overflowBound_mul,
    ← Nat.div_lt_iff_lt_mul (Nat.two_pow_pos _), ← rounded_lt_iff hdropped hhigh (a := a), hdropped]
  omega

/-- **Overflow.** A number is rounded to infinity if and only if it is at least `overflowBound`. -/
theorem exponentAtMost_iff :
    ExponentAtMost 971 (roundWithAccuracy Format.binary64 s m (-k) a) ↔
      m < overflowBound * 2 ^ k := by
  -- By the number of digits: with fewer there is room for one more, with more there is none.
  rcases Nat.lt_trichotomy m.log2 (1023 + k) with hlt | heq | hgt
  · have hm : m < 2 ^ (1023 + k) :=
      Nat.lt_log2_self.trans_le (Nat.pow_le_pow_right Nat.two_pos hlt)
    have hdigits : 1023 + k = 52 + 970 + k + 1 := by omega
    exact iff_of_true (exponentAtMost_of_lt 970 (hdigits ▸ hm))
      (hm.trans_le (two_pow_le_overflowBound_mul k))
  · exact exponentAtMost_iff_of_log2_eq heq
  · have hzero : m ≠ 0 := by
      rintro rfl
      rw [Nat.log2_zero] at hgt
      exact absurd hgt (Nat.not_lt_zero _)
    have hm : 2 ^ (1024 + k) ≤ m := (Nat.le_log2 hzero).mp (by omega)
    exact iff_of_false (not_exponentAtMost_of_le hm) ((overflowBound_mul_le k).trans hm).not_gt

/-! ### Packed doubles -/

theorem isFinite_unpack (b : BitVec Format.binary64.numBits) :
    (unpack Format.binary64 b).isFinite ↔ unpackExponent b ≠ -1#_ := by
  rw [UnpackedFloat.unpack]
  dsimp only
  split
  · rename_i hexponent
    refine iff_of_false ?_ (not_not_intro hexponent)
    split <;> exact Bool.false_ne_true
  · rename_i hexponent
    refine iff_of_true ?_ hexponent
    split
    · split <;> rfl
    · rfl

/-- The exponent of a packed number, which is 1075 more than its own or zero. -/
theorem toNat_unpackExponent_pack_le {u : UnpackedFloat} {c : ℤ} (hmin : -1074 ≤ c) (hmax : c ≤ 971)
    (h : ExponentAtMost c u) :
    ((unpackExponent (UnpackedFloat.pack Format.binary64 u)).toNat : ℤ) ≤ c + 1075 := by
  cases u with
  | notANumber => exact h.elim
  | infinity s => exact h.elim
  | zero s =>
      rw [UnpackedFloat.pack, packedZero, unpackExponent_packComponents]
      change (0 : ℤ) ≤ c + 1075
      omega
  | finite s m e hm =>
      have h : e ≤ c := h
      rw [UnpackedFloat.pack]
      dsimp only
      split
      · rename_i hlarge
        have hlarge : 2 ^ 11 ≤ (e + 1023 + 52).toNat + 1 := hlarge
        omega
      · split
        · rw [unpackExponent_packComponents, BitVec.toNat_ofNat]
          change (((e + 1023 + 52).toNat % 2 ^ 11 : ℕ) : ℤ) ≤ c + 1075
          omega
        · rw [unpackExponent_packComponents]
          change (0 : ℤ) ≤ c + 1075
          omega

theorem unpackExponent_pack_ne {u : UnpackedFloat} {c : ℤ} (hmin : -1074 ≤ c) (hmax : c ≤ 971)
    (h : ExponentAtMost c u) :
    unpackExponent (UnpackedFloat.pack Format.binary64 u) ≠ -1#_ := by
  intro hexponent
  have hle := toNat_unpackExponent_pack_le hmin hmax h
  rw [hexponent] at hle
  change (2047 : ℤ) ≤ c + 1075 at hle
  omega

theorem isFinite_pack {u : UnpackedFloat} :
    (Float.Model.pack u).isFinite ↔ ExponentAtMost 971 u := by
  change (UnpackedFloat.unpack Format.binary64 (UnpackedFloat.pack Format.binary64 u)).isFinite ↔ _
  rw [isFinite_unpack]
  refine ⟨fun hexponent => ?_, unpackExponent_pack_ne (by decide) le_rfl⟩
  cases u with
  | notANumber => exact hexponent unpackExponent_packComponents
  | infinity s => exact hexponent unpackExponent_packComponents
  | zero s => trivial
  | finite s m e hm =>
      by_contra hlarge
      have hlarge : ¬e ≤ 971 := hlarge
      have hinfinite : 2 ^ 11 ≤ (e + 1023 + 52).toNat + 1 := by omega
      refine hexponent ?_
      rw [UnpackedFloat.pack]
      exact (congrArg unpackExponent (if_pos hinfinite)).trans unpackExponent_packComponents

theorem mantissa_lt_of_unpack {b : BitVec Format.binary64.numBits} {s : Sign} {m : ℕ} {e : ℤ}
    {hm : 0 < m} (h : UnpackedFloat.unpack Format.binary64 b = .finite s m e hm) : m < 2 ^ 53 := by
  rw [UnpackedFloat.unpack] at h
  dsimp only at h
  split at h
  · split at h <;> cases h
  · split at h
    · split at h
      · cases h
      · cases h
        exact (unpackMantissa b).isLt.trans (Nat.pow_lt_pow_right (by decide) (by decide))
    · cases h
      exact (1#1 ++ unpackMantissa b).isLt

theorem exponentAtMost_unpack {b : BitVec Format.binary64.numBits} {c : ℤ} (hmin : -1074 ≤ c)
    (hne : unpackExponent b ≠ -1#_) (hle : ((unpackExponent b).toNat : ℤ) ≤ c + 1075) :
    ExponentAtMost c (UnpackedFloat.unpack Format.binary64 b) := by
  rw [UnpackedFloat.unpack]
  dsimp only
  rw [if_neg hne]
  split
  · split
    · trivial
    · rename_i hzero _
      change ((unpackExponent b).toNat : ℤ) - (1023 + 52) + 1 ≤ c
      rw [hzero]
      change (0 : ℤ) - (1023 + 52) + 1 ≤ c
      omega
  · change ((unpackExponent b).toNat : ℤ) - (1023 + 52) ≤ c
    omega

/-- Packing a number and unpacking it does not make a large one of it. -/
theorem exponentAtMost_unpack_pack {u : UnpackedFloat} {c : ℤ} (hmin : -1074 ≤ c) (hmax : c ≤ 971)
    (h : ExponentAtMost c u) : ExponentAtMost c (Float.Model.pack u).unpack :=
  exponentAtMost_unpack hmin (unpackExponent_pack_ne hmin hmax h)
    (toNat_unpackExponent_pack_le hmin hmax h)

/-- A quotient is rounded with an exponent that is not positive, if the dividend is not much greater
than the divisor. -/
theorem exists_div_eq (s₁ s₂ : Sign) {m₁ m₂ : ℕ} {e₁ e₂ : ℤ} (h₁ : 0 < m₁) (h₂ : 0 < m₂)
    (hle : e₁ ≤ e₂ ∨ totalExponent m₁ e₁ ≤ totalExponent m₂ e₂ + 53) :
    ∃ (k : ℕ) (a : Accuracy), -k ≤ e₁ - e₂ ∧
      div Format.binary64 (.finite s₁ m₁ e₁ h₁) (.finite s₂ m₂ e₂ h₂) =
        roundWithAccuracy Format.binary64 (s₁ / s₂) (m₁ * 2 ^ (e₁ - e₂ + k).toNat / m₂) (-k) a := by
  have htarget : Format.binary64.targetExponent (totalExponent m₁ e₁ - totalExponent m₂ e₂) =
      max (totalExponent m₁ e₁ - totalExponent m₂ e₂ - 53) (-1074) := rfl
  obtain ⟨k, hk⟩ : ∃ k : ℕ, min (e₁ - e₂) (Format.binary64.targetExponent
      (totalExponent m₁ e₁ - totalExponent m₂ e₂)) = -k :=
    Int.exists_eq_neg_ofNat (by omega)
  refine ⟨k, accuracyOfFraction (m₁ * 2 ^ (e₁ - e₂ + k).toNat % m₂) m₂, by omega, ?_⟩
  rw [UnpackedFloat.div, divCore, hk]
  dsimp only
  rw [Nat.shiftLeft_eq, Int.sub_neg]

/-! ### Decimals -/

/-- Unless it is so small that it is zero, a decimal is rounded from the whole part of a quotient
that has enough digits. -/
theorem exists_ofScientific_eq {m e : ℕ} (hm : m ≠ 0) (he : e ≤ 2 ^ 11 + m.log2) :
    ∃ (k : ℕ) (a : Accuracy), UnpackedFloat.ofScientific Format.binary64 m (-e) =
      roundWithAccuracy Format.binary64 .positive (m * 2 ^ k / 10 ^ e) (-k) a := by
  have hlarge : ¬(-e : ℤ) > 2 ^ Format.binary64.exponentBits := by
    change ¬(-e : ℤ) > 2 ^ 11
    omega
  have hsmall : ¬(-e : ℤ) < -(2 ^ Format.binary64.exponentBits + m.log2) := by
    change ¬(-e : ℤ) < -(2 ^ 11 + m.log2)
    omega
  rw [UnpackedFloat.ofScientific, dif_neg hm, if_neg hlarge, if_neg hsmall]
  clear hlarge hsmall
  by_cases hzero : e = 0
  · subst hzero
    have hnonneg : 0 ≤ (-(0 : ℕ) : ℤ) := le_rfl
    refine ⟨53, .exact, ?_⟩
    have hmantissa : m <<< Format.binary64.mantissaBits * 10 ^ (-(0 : ℕ) : ℤ).toNat =
        m * 2 ^ 53 / 10 ^ 0 := by
      rw [Nat.shiftLeft_eq, Nat.pow_zero, Nat.div_one]
      exact Nat.mul_one _
    have hexponent : -(Format.binary64.mantissaBits : ℤ) + 0 = -(53 : ℕ) := rfl
    rw [if_pos hnonneg, UnpackedFloat.mul, hmantissa, hexponent]
    rfl
  · have hneg : ¬0 ≤ (-e : ℤ) := by omega
    have hten : (-(-e : ℤ)).toNat = e := by omega
    rw [if_neg hneg]
    have hpos : 0 < 10 ^ (-(-e : ℤ)).toNat := Nat.pow_pos (by decide)
    obtain ⟨k, a, -, hdiv⟩ := exists_div_eq .positive .positive (Nat.pos_of_ne_zero hm) hpos
      (.inl (le_refl (0 : ℤ)))
    refine ⟨k, a, hdiv.trans ?_⟩
    rw [hten, sub_zero, zero_add, Int.toNat_natCast]
    rfl

theorem exponentAtMost_ofScientific (m e : ℕ) :
    ExponentAtMost 971 (UnpackedFloat.ofScientific Format.binary64 m (-e)) ↔
      m < overflowBound * 10 ^ e := by
  by_cases hzero : m = 0
  · subst hzero
    rw [UnpackedFloat.ofScientific, dif_pos rfl]
    exact iff_of_true trivial (Nat.mul_pos overflowBound_pos (Nat.pow_pos (by decide)))
  · rcases Nat.lt_or_ge (2 ^ 11 + m.log2) e with hsmall | hle
    · have hless : (-e : ℤ) < -(2 ^ Format.binary64.exponentBits + m.log2) := by
        change (-e : ℤ) < -(2 ^ 11 + m.log2)
        omega
      have hlarge : ¬(-e : ℤ) > 2 ^ Format.binary64.exponentBits := by
        change ¬(-e : ℤ) > 2 ^ 11
        omega
      rw [UnpackedFloat.ofScientific, dif_neg hzero, if_neg hlarge, if_pos hless]
      refine iff_of_true trivial ?_
      calc
        m < 2 ^ (m.log2 + 1) := Nat.lt_log2_self
        _ ≤ 2 ^ e := Nat.pow_le_pow_right Nat.two_pos (by omega)
        _ ≤ 10 ^ e := Nat.pow_le_pow_left (by decide) e
        _ ≤ overflowBound * 10 ^ e := Nat.le_mul_of_pos_left _ overflowBound_pos
    · obtain ⟨k, a, hround⟩ := exists_ofScientific_eq hzero hle
      rw [hround, exponentAtMost_iff, Nat.div_lt_iff_lt_mul (Nat.pow_pos (by decide)),
        Nat.mul_right_comm, Nat.mul_lt_mul_right (Nat.two_pow_pos k)]

/-! ### Small decimals

Few digits and few places are worked out by a division of doubles, which stays far below the bound.
-/

def atLeastOne : UnpackedFloat → Bool
  | .finite _ m e _ => -52 ≤ e && 0 < totalExponent m e
  | _ => false

theorem atLeastOne_powers :
    Float.exactlyRepresentablePowersOfTen.all (fun x => atLeastOne x.toModel.unpack) := by
  decide +kernel

theorem exponentAtMost_ofNat {n : ℕ} (h : n < 2 ^ 53) :
    ExponentAtMost 1 (UnpackedFloat.ofNat Format.binary64 n) := by
  rw [UnpackedFloat.ofNat, UnpackedFloat.ofInt, UnpackedFloat.normalize]
  split
  · rename_i hcompare
    rw [Int.compare_eq_lt] at hcompare
    omega
  · trivial
  · rw [UnpackedFloat.round, decreaseExponent]
    dsimp only
    generalize (0 - Format.binary64.targetExponent (totalExponent (n : ℤ).toNat 0)).toNat = k
    rw [Int.toNat_natCast, zero_sub, Nat.shiftLeft_eq]
    refine exponentAtMost_of_lt 0 ?_
    calc
      n * 2 ^ k < 2 ^ 53 * 2 ^ k := Nat.mul_lt_mul_of_pos_right h (Nat.two_pow_pos k)
      _ = 2 ^ (52 + 0 + k + 1) := by
        rw [← Nat.pow_add]
        congr 1
        omega

theorem exponentAtMost_div {f g : Float.Model} (hf : ExponentAtMost 1 f.unpack)
    (hg : atLeastOne g.unpack) :
    ExponentAtMost 971 (UnpackedFloat.div Format.binary64 f.unpack g.unpack) := by
  cases hdivisor : g.unpack with
  | finite s₂ m₂ e₂ h₂ =>
      rw [hdivisor, atLeastOne, Bool.and_eq_true, decide_eq_true_eq, decide_eq_true_eq] at hg
      cases hdividend : f.unpack with
      | zero s₁ => trivial
      | finite s₁ m₁ e₁ h₁ =>
          have hm : m₁ < 2 ^ 53 := mantissa_lt_of_unpack hdividend
          have he : e₁ ≤ 1 := by
            rw [hdividend] at hf
            exact hf
          have htotal : totalExponent m₁ e₁ ≤ totalExponent m₂ e₂ + 53 := by
            have hlog := log2_le_of_lt hm
            rw [totalExponent]
            omega
          obtain ⟨k, a, hk, hdiv⟩ := exists_div_eq s₁ s₂ h₁ h₂ (.inr htotal)
          rw [hdiv]
          refine exponentAtMost_of_lt 970 ?_
          calc
            m₁ * 2 ^ (e₁ - e₂ + k).toNat / m₂ ≤ m₁ * 2 ^ (e₁ - e₂ + k).toNat := Nat.div_le_self _ _
            _ ≤ 2 ^ 53 * 2 ^ (53 + k) :=
              Nat.mul_le_mul hm.le (Nat.pow_le_pow_right Nat.two_pos (by omega))
            _ < 2 ^ (52 + 970 + k + 1) := by
              rw [← Nat.pow_add]
              exact Nat.pow_lt_pow_right (by decide) (by omega)
      | infinity s₁ => exact absurd hf (by rw [hdividend]; exact id)
      | notANumber => exact absurd hf (by rw [hdividend]; exact id)
  | zero s₂ => exact absurd hg (by rw [hdivisor]; exact Bool.false_ne_true)
  | infinity s₂ => exact absurd hg (by rw [hdivisor]; exact Bool.false_ne_true)
  | notANumber => exact absurd hg (by rw [hdivisor]; exact Bool.false_ne_true)

/-- **Decimals that are finite doubles.** -/
theorem isFinite_ofScientific (m e : ℕ) :
    (Float.ofScientific m true e).isFinite ↔ m < overflowBound * 10 ^ e := by
  rw [Float.ofScientific]
  split
  · rename_i h
    have hsize : e < Float.exactlyRepresentablePowersOfTen.size := Nat.lt_succ_of_le h.2
    have hpower : atLeastOne Float.exactlyRepresentablePowersOfTen[e].toModel.unpack :=
      Array.all_eq_true.mp atLeastOne_powers e hsize
    have hcast : m.toUInt64.toNat = m := UInt64.toNat_ofNat_of_lt' (by
      change m < 2 ^ 64
      omega)
    have hnumber : ExponentAtMost 1 (UnpackedFloat.ofNat Format.binary64 m.toUInt64.toNat) := by
      rw [hcast]
      exact exponentAtMost_ofNat h.1
    have hpacked : ExponentAtMost 1 (m.toUInt64.toFloat).toModel.unpack :=
      exponentAtMost_unpack_pack (by decide) (by decide) hnumber
    refine iff_of_true (isFinite_pack.mpr (exponentAtMost_div hpacked hpower)) ?_
    calc
      m < 2 ^ 53 := h.1
      _ ≤ overflowBound := two_pow_le_overflowBound
      _ ≤ overflowBound * 10 ^ e := Nat.le_mul_of_pos_right _ (Nat.pow_pos (by decide))
  · dsimp only
    rw [if_pos rfl, Int.negOfNat_eq]
    exact isFinite_pack.trans (exponentAtMost_ofScientific m e)

theorem exponentAtMost_neg {c : ℤ} {u : UnpackedFloat} :
    ExponentAtMost c u.neg ↔ ExponentAtMost c u := by
  cases u <;> exact Iff.rfl

theorem exponentAtMost_unpack_iff {b : BitVec Format.binary64.numBits} :
    ExponentAtMost 971 (UnpackedFloat.unpack Format.binary64 b) ↔
      (UnpackedFloat.unpack Format.binary64 b).isFinite := by
  constructor
  · intro h
    cases hunpack : UnpackedFloat.unpack Format.binary64 b with
    | zero s => rfl
    | finite s m e hm => rfl
    | infinity s => exact absurd h (by rw [hunpack]; exact id)
    | notANumber => exact absurd h (by rw [hunpack]; exact id)
  · intro h
    have hne : unpackExponent b ≠ -1#_ := (isFinite_unpack b).mp h
    have hlt : (unpackExponent b).toNat < 2 ^ 11 := (unpackExponent b).isLt
    have hlast : (unpackExponent b).toNat ≠ 2 ^ 11 - 1 :=
      fun hlast => hne (BitVec.eq_of_toNat_eq hlast)
    exact exponentAtMost_unpack (by decide) hne (by omega)

theorem isFinite_neg (x : Float) : (-x).isFinite ↔ x.isFinite :=
  isFinite_pack.trans (exponentAtMost_neg.trans exponentAtMost_unpack_iff)

end Backtrack.Double
