import Backtrack.Decimal
import Backtrack.Proofs.Doubles

/-!
The decimal that is printed for a double. It is the first hit of a search on finer and finer grids
of decimals, and a hit lies around the double, between the midpoints to its neighbours. So it is
nearer to the double than to any other one. The last grid of the search is so fine that one of its
points is no more than a quarter of the last binary place away.
-/

namespace Backtrack

open Float.Model UnpackedFloat

namespace Double

def magnitude (x : Float) : ℚ :=
  match x.toModel.unpack with
  | .finite _ m e _ => m * 2 ^ e
  | _ => 0

def mantissa (x : Float) : ℕ :=
  match x.toModel.unpack with
  | .finite _ m _ _ => m
  | _ => 0

theorem toNat_unpackMantissa (b : BitVec Format.binary64.numBits) :
    (unpackMantissa b).toNat = b.toNat % 2 ^ 52 := by
  rw [unpackMantissa, BitVec.toNat_cast, BitVec.extractLsb_toNat]
  rfl

theorem toNat_unpackExponent (b : BitVec Format.binary64.numBits) :
    (unpackExponent b).toNat = b.toNat / 2 ^ 52 % 2 ^ 11 := by
  rw [unpackExponent, BitVec.toNat_cast, BitVec.extractLsb_toNat, Nat.shiftRight_eq_div_pow]
  rfl

/-- The mantissa with the bit that is not stored. -/
theorem toNat_one_append (b : BitVec 52) :
    (1#1 ++ b).toNat = b.toNat + 2 ^ 52 := by
  rw [BitVec.toNat_append, ← Nat.shiftLeft_add_eq_or_of_lt b.isLt, Nat.add_comm]
  rfl

end Double

namespace Decimal.Binary

/-- A double with as many digits in its mantissa as it can have. -/
structure IsCanonical (b : Binary) : Prop where
  mantissa_lt : b.mantissa < 2 ^ 53
  min_le : -1074 ≤ b.exponent
  le_max : b.exponent ≤ 971
  le_mantissa : -1074 < b.exponent → 2 ^ 52 ≤ b.mantissa
  atPowerOfTwo_iff : b.atPowerOfTwo ↔ b.mantissa = 2 ^ 52 ∧ -1074 < b.exponent

variable {x : Float}

theorem biased_lt (hx : x.isFinite) : x.toBits.toNat / 2 ^ 52 % 2 ^ 11 < 2047 := by
  have hne := (Double.isFinite_unpack _).mp hx
  have hexponent := Double.toNat_unpackExponent x.toBits.toBitVec
  have hlast : x.toBits.toNat / 2 ^ 52 % 2 ^ 11 ≠ 2047 := fun heq =>
    hne (BitVec.eq_of_toNat_eq (hexponent.trans heq))
  omega

theorem isCanonical_ofFloat (hx : x.isFinite) : (ofFloat x).IsCanonical := by
  have hbiased := biased_lt hx
  have hfraction : x.toBits.toNat % 2 ^ 52 < 2 ^ 52 := Nat.mod_lt _ (by decide)
  unfold ofFloat
  simp only [Nat.pow_eq]
  generalize x.toBits.toNat / 2 ^ 52 % 2 ^ 11 = biased at *
  generalize x.toBits.toNat % 2 ^ 52 = fraction at *
  split
  · constructor <;> dsimp only
    · omega
    · exact le_rfl
    · decide
    · omega
    · simp
  · constructor <;> dsimp only
    · omega
    · omega
    · omega
    · omega
    · simp only [Bool.and_eq_true, decide_eq_true_eq]
      omega

/-- The library's reading of a finite double is the one that is printed. -/
theorem ofFloat_eq (x : Float) :
    ofFloat x =
      let e := (@unpackExponent Format.binary64 x.toBits.toBitVec).toNat
      let m := (@unpackMantissa Format.binary64 x.toBits.toBitVec).toNat
      if e = 0 then ⟨m, -1074, false⟩ else ⟨m + 2 ^ 52, (e : ℤ) - 1075, m = 0 && 1 < e⟩ := by
  simp only [Double.toNat_unpackExponent, Double.toNat_unpackMantissa]
  rfl

theorem unpack_eq (hx : x.isFinite) :
    (∃ s, (ofFloat x).mantissa = 0 ∧ x.toModel.unpack = .zero s) ∨
      ∃ s h, x.toModel.unpack = .finite s (ofFloat x).mantissa (ofFloat x).exponent h := by
  have hne : @unpackExponent Format.binary64 x.toBits.toBitVec ≠ -1#_ :=
    (Double.isFinite_unpack _).mp hx
  have hunpack : x.toModel.unpack = UnpackedFloat.unpack Format.binary64 x.toBits.toBitVec := rfl
  by_cases hzero : @unpackExponent Format.binary64 x.toBits.toBitVec = 0#_
  · have hfloat := (ofFloat_eq x).trans (if_pos (congrArg BitVec.toNat hzero))
    rw [hunpack, UnpackedFloat.unpack, hfloat]
    dsimp only
    rw [if_neg hne, if_pos hzero]
    split
    · rename_i hfraction
      exact .inl ⟨_, congrArg BitVec.toNat hfraction, rfl⟩
    · rename_i hfraction
      rw [hzero]
      exact .inr ⟨_, by rwa [BitVec.toNat_pos, BitVec.pos_iff_ne_zero], rfl⟩
  · have hfloat := (ofFloat_eq x).trans (if_neg fun h => hzero (BitVec.eq_of_toNat_eq h))
    rw [hunpack, UnpackedFloat.unpack, hfloat]
    dsimp only
    rw [if_neg hne, if_neg hzero]
    simp only [Double.toNat_one_append]
    exact .inr ⟨_, Nat.add_pos_right _ (by decide), rfl⟩

theorem magnitude_eq (hx : x.isFinite) :
    Double.magnitude x = (ofFloat x).mantissa * 2 ^ (ofFloat x).exponent ∧
      Double.mantissa x = (ofFloat x).mantissa := by
  unfold Double.magnitude Double.mantissa
  obtain ⟨s, hzero, hunpack⟩ | ⟨s, h, hunpack⟩ := unpack_eq hx
  · simp [hunpack, hzero]
  · simp [hunpack]

/-- The numbers around a double, up to the midpoints to those on either side. -/
structure Surrounds (b : Binary) (q : ℚ) : Prop where
  low : (b.mantissa - if b.atPowerOfTwo then 1 / 4 else 1 / 2 : ℚ) * 2 ^ b.exponent ≤ q
  high : q ≤ (b.mantissa + 1 / 2 : ℚ) * 2 ^ b.exponent
  even : q = (b.mantissa - if b.atPowerOfTwo then 1 / 4 else 1 / 2 : ℚ) * 2 ^ b.exponent ∨
    q = (b.mantissa + 1 / 2 : ℚ) * 2 ^ b.exponent → Even b.mantissa

variable {b c : Binary} {q : ℚ}

/-- A finer double is below all doubles with this exponent. -/
theorem IsCanonical.le_of_finer (hb : b.IsCanonical) (hc : c.IsCanonical)
    (hlt : c.exponent < b.exponent) :
    (c.mantissa * 2 ^ c.exponent : ℚ) ≤
      (b.mantissa - if b.atPowerOfTwo then 1 / 2 else 1 : ℚ) * 2 ^ b.exponent := by
  have hmin := hc.min_le
  have hnormal := hb.le_mantissa (by omega)
  have hpower : (2 : ℚ) ^ c.exponent ≤ 2 ^ b.exponent / 2 := by
    rw [div_eq_mul_inv, ← zpow_sub_one₀ (by norm_num)]
    exact zpow_le_zpow_right₀ (by norm_num) (by omega)
  have hmantissa : (c.mantissa : ℚ) ≤ 2 ^ 53 - 1 := by
    have hsucc := Nat.succ_le_of_lt hc.mantissa_lt
    rw [le_sub_iff_add_le]
    exact_mod_cast hsucc
  have hstep : (2 ^ 52 - 1 / 2 : ℚ) ≤ b.mantissa - if b.atPowerOfTwo then 1 / 2 else 1 := by
    split
    · have hcast : (2 ^ 52 : ℚ) ≤ b.mantissa := by exact_mod_cast hnormal
      linarith
    · rename_i hpowerOfTwo
      have hne : 2 ^ 52 ≠ b.mantissa := fun h =>
        hpowerOfTwo (hb.atPowerOfTwo_iff.mpr ⟨h.symm, by omega⟩)
      have hcast : (2 ^ 52 + 1 : ℚ) ≤ b.mantissa := by
        exact_mod_cast Nat.lt_of_le_of_ne hnormal hne
      linarith
  calc
    (c.mantissa * 2 ^ c.exponent : ℚ) ≤ (2 ^ 53 - 1) * (2 ^ b.exponent / 2) := by gcongr
    _ = (2 ^ 52 - 1 / 2) * 2 ^ b.exponent := by ring
    _ ≤ _ := by gcongr

theorem exists_multiple_of_le (hle : b.exponent ≤ c.exponent) :
    ∃ n : ℕ, (c.mantissa * 2 ^ c.exponent : ℚ) = n * 2 ^ b.exponent := by
  obtain ⟨k, hk⟩ := Int.exists_add_of_le hle
  refine ⟨c.mantissa * 2 ^ k, ?_⟩
  rw [hk, zpow_add₀ (by norm_num), zpow_natCast]
  push_cast
  ring

/-- Every other double is a step or more away, or half a step below a power of two. -/
theorem IsCanonical.gap (hb : b.IsCanonical) (hc : c.IsCanonical)
    (hne : (c.mantissa * 2 ^ c.exponent : ℚ) ≠ b.mantissa * 2 ^ b.exponent) :
    (c.mantissa * 2 ^ c.exponent : ℚ) ≤
        (b.mantissa - if b.atPowerOfTwo then 1 / 2 else 1 : ℚ) * 2 ^ b.exponent ∨
      (b.mantissa + 1 : ℚ) * 2 ^ b.exponent ≤ c.mantissa * 2 ^ c.exponent := by
  rcases Int.lt_or_le c.exponent b.exponent with hlt | hle
  · exact .inl (hb.le_of_finer hc hlt)
  · obtain ⟨n, hn⟩ := exists_multiple_of_le hle
    rw [hn] at hne ⊢
    have hne : n ≠ b.mantissa := fun h => hne (by rw [h])
    rcases Nat.lt_or_gt_of_ne hne with hlt | hgt
    · left
      have hcast : (n : ℚ) + 1 ≤ b.mantissa := by exact_mod_cast hlt
      gcongr
      split <;> linarith
    · right
      have hcast : (b.mantissa : ℚ) + 1 ≤ n := by exact_mod_cast hgt
      gcongr

/-- What is at most half of the way to the neighbours of `v` is at least as near to `v` as to what
lies behind them. -/
theorem abs_sub_le_of_gap {v y a d : ℚ} (ha : 0 < a) (hd : 0 < d) (hlow : v - a ≤ q)
    (hhigh : q ≤ v + d) (hy : y ≤ v - 2 * a ∨ v + 2 * d ≤ y) :
    |q - v| ≤ |q - y| ∧ (|q - y| = |q - v| → q = v - a ∨ q = v + d) := by
  rcases hy with hy | hy
  · have hsign : 0 ≤ q - y := by linarith
    rw [abs_of_nonneg hsign]
    rcases abs_cases (q - v) with ⟨heq, -⟩ | ⟨heq, -⟩
    · exact ⟨by linarith, fun h => absurd h (by linarith)⟩
    · exact ⟨by linarith, fun h => .inl (by linarith)⟩
  · have hsign : q - y ≤ 0 := by linarith
    rw [abs_of_nonpos hsign]
    rcases abs_cases (q - v) with ⟨heq, -⟩ | ⟨heq, -⟩
    · exact ⟨by linarith, fun h => .inr (by linarith)⟩
    · exact ⟨by linarith, fun h => absurd h (by linarith)⟩

/-- A number around a double is at least as near to it as to any other one. -/
theorem Surrounds.le (hq : b.Surrounds q) (hb : b.IsCanonical) (hc : c.IsCanonical)
    (hne : (c.mantissa * 2 ^ c.exponent : ℚ) ≠ b.mantissa * 2 ^ b.exponent) :
    |q - b.mantissa * 2 ^ b.exponent| ≤ |q - c.mantissa * 2 ^ c.exponent| ∧
      (|q - c.mantissa * 2 ^ c.exponent| = |q - b.mantissa * 2 ^ b.exponent| →
        Even b.mantissa) := by
  have hpos : (0 : ℚ) < 2 ^ b.exponent := by positivity
  have hgap := hb.gap hc hne
  obtain ⟨hlow, hhigh, heven⟩ := hq
  rw [sub_mul] at hlow hgap heven
  rw [add_mul] at hhigh hgap heven
  have hbelow : (0 : ℚ) < (if b.atPowerOfTwo then 1 / 4 else 1 / 2) * 2 ^ b.exponent := by
    split <;> positivity
  have habove : (0 : ℚ) < 1 / 2 * 2 ^ b.exponent := by positivity
  have hneighbours : (c.mantissa * 2 ^ c.exponent : ℚ) ≤ b.mantissa * 2 ^ b.exponent -
        2 * ((if b.atPowerOfTwo then 1 / 4 else 1 / 2) * 2 ^ b.exponent) ∨
      b.mantissa * 2 ^ b.exponent + 2 * (1 / 2 * 2 ^ b.exponent) ≤
        (c.mantissa * 2 ^ c.exponent : ℚ) := by
    refine hgap.imp (fun h => h.trans_eq ?_) (fun h => h.trans_eq' ?_)
    · split <;> ring
    · ring
  obtain ⟨hle, htie⟩ := abs_sub_le_of_gap hbelow habove hlow hhigh hneighbours
  exact ⟨hle, fun h => heven (htie h)⟩

/-! ### The search -/

theorem zpow_mul_pow_toNat {a : ℚ} (ha : a ≠ 0) (n : ℤ) : a ^ n * a ^ (-n).toNat = a ^ n.toNat := by
  rw [← zpow_natCast, ← zpow_natCast, ← zpow_add₀ ha]
  congr 1
  omega

theorem scale_pos (b : Binary) (k : ℤ) : 0 < (b.scale k).1 ∧ 0 < (b.scale k).2 := by
  simp only [scale, Nat.pow_eq]
  exact ⟨by positivity, by positivity⟩

/-- Quarters of the last binary place in units of a power of ten. -/
theorem scale_spec (b : Binary) (k : ℤ) :
    ((b.scale k).1 * 10 ^ k : ℚ) = (b.scale k).2 * (2 ^ b.exponent / 4) := by
  have hbinary := zpow_mul_pow_toNat (a := 2) (by norm_num) (b.exponent - 2)
  have hdecimal := zpow_mul_pow_toNat (a := 10) (by norm_num) k
  have hquarter : (2 ^ (b.exponent - 2) : ℚ) = 2 ^ b.exponent / 4 := by
    rw [zpow_sub₀ (by norm_num)]
    norm_num
  rw [neg_sub, hquarter] at hbinary
  simp only [scale, Nat.pow_eq, Nat.cast_mul, Nat.cast_pow, Nat.cast_ofNat]
  rw [← hbinary, ← hdecimal]
  ring

theorem quarters_eq (b : Binary) (k : ℤ) (n : ℕ) :
    (n * (2 ^ b.exponent / 4) : ℚ) = n * (b.scale k).1 / (b.scale k).2 * 10 ^ k := by
  have hden : ((b.scale k).2 : ℚ) ≠ 0 := Nat.cast_ne_zero.mpr (b.scale_pos k).2.ne'
  rw [div_mul_eq_mul_div, mul_assoc, b.scale_spec, eq_div_iff hden]
  ring

theorem quarters_le_iff (b : Binary) (k : ℤ) (n d : ℕ) :
    (n * (2 ^ b.exponent / 4) : ℚ) ≤ d * 10 ^ k ↔ n * (b.scale k).1 ≤ d * (b.scale k).2 := by
  have hden : (0 : ℚ) < (b.scale k).2 := Nat.cast_pos.mpr (b.scale_pos k).2
  rw [b.quarters_eq k, mul_le_mul_iff_of_pos_right (by positivity), div_le_iff₀ hden]
  exact_mod_cast Iff.rfl

theorem le_quarters_iff (b : Binary) (k : ℤ) (n d : ℕ) :
    (d * 10 ^ k : ℚ) ≤ n * (2 ^ b.exponent / 4) ↔ d * (b.scale k).2 ≤ n * (b.scale k).1 := by
  have hden : (0 : ℚ) < (b.scale k).2 := Nat.cast_pos.mpr (b.scale_pos k).2
  rw [b.quarters_eq k, mul_le_mul_iff_of_pos_right (by positivity), le_div_iff₀ hden]
  exact_mod_cast Iff.rfl

/-- What reads back as a double lies around it. -/
theorem surrounds_of_readsBack (hpos : 0 < b.mantissa) {k : ℤ} {d : ℕ}
    (h : b.readsBack k d) : b.Surrounds (d * 10 ^ k) := by
  have hlow : ((4 * b.mantissa - if b.atPowerOfTwo then 1 else 2 : ℕ) * (2 ^ b.exponent / 4) : ℚ) =
      (b.mantissa - if b.atPowerOfTwo then 1 / 4 else 1 / 2 : ℚ) * 2 ^ b.exponent := by
    rw [Nat.cast_sub (by split <;> omega)]
    split <;> push_cast <;> ring
  have hhigh : ((4 * b.mantissa + 2 : ℕ) * (2 ^ b.exponent / 4) : ℚ) =
      (b.mantissa + 1 / 2 : ℚ) * 2 ^ b.exponent := by
    push_cast
    ring
  unfold readsBack at h
  dsimp only at h
  split at h
  · rename_i heven
    rw [Bool.and_eq_true, decide_eq_true_eq, decide_eq_true_eq, ← quarters_le_iff,
      ← le_quarters_iff, hlow, hhigh] at h
    exact ⟨h.1, h.2, fun _ => Nat.even_iff.mpr heven⟩
  · rw [Bool.and_eq_true, decide_eq_true_eq, decide_eq_true_eq, ← not_le, ← not_le,
      ← quarters_le_iff, ← le_quarters_iff, not_le, not_le, hlow, hhigh] at h
    exact ⟨h.1.le, h.2.le, fun heq => absurd heq (not_or.mpr ⟨h.1.ne', h.2.ne⟩)⟩

theorem pos_of_readsBack (hpos : 0 < b.mantissa) {k : ℤ} {d : ℕ} (h : b.readsBack k d) : 0 < d := by
  have hlow : 0 < (4 * b.mantissa - if b.atPowerOfTwo then 1 else 2) * (b.scale k).1 :=
    Nat.mul_pos (by split <;> omega) (b.scale_pos k).1
  rcases Nat.eq_zero_or_pos d with rfl | hd
  · unfold readsBack at h
    dsimp only at h
    rw [Nat.zero_mul] at h
    split at h
    · rw [Bool.and_eq_true, decide_eq_true_eq] at h
      exact absurd h.1 hlow.not_ge
    · rw [Bool.and_eq_true, decide_eq_true_eq] at h
      exact absurd h.1 (Nat.not_lt_zero _)
  · exact hd

/-- What is no more than a quarter of the last binary place away reads back. -/
theorem readsBack_of_near (hb : b.IsCanonical) (hpos : 0 < b.mantissa) {k : ℤ} {d : ℕ}
    (hlow : 4 * b.mantissa * (b.scale k).1 ≤ d * (b.scale k).2 + (b.scale k).1)
    (hhigh : d * (b.scale k).2 ≤ 4 * b.mantissa * (b.scale k).1 + (b.scale k).1) :
    b.readsBack k d := by
  have hnum := (b.scale_pos k).1
  unfold readsBack
  dsimp only
  generalize (b.scale k).1 = num at *
  generalize d * (b.scale k).2 = scaled at *
  have hless (g : ℕ) : (4 * b.mantissa - g) * num = 4 * b.mantissa * num - g * num :=
    Nat.sub_mul _ _ _
  have hmore : (4 * b.mantissa + 2) * num = 4 * b.mantissa * num + 2 * num := Nat.add_mul _ _ _
  rw [hless, hmore]
  split
  · rw [Bool.and_eq_true, decide_eq_true_eq, decide_eq_true_eq]
    split <;> omega
  · rename_i hodd
    have hpower : ¬b.atPowerOfTwo := fun h => by
      have hmantissa := (hb.atPowerOfTwo_iff.mp h).1
      omega
    rw [if_neg hpower, Bool.and_eq_true, decide_eq_true_eq, decide_eq_true_eq]
    have hfour : 4 * num ≤ 4 * b.mantissa * num := Nat.mul_le_mul_right num (by omega)
    omega

/-- On a grid that is fine enough, one of the neighbours reads back. -/
theorem isSome_nearest? (hb : b.IsCanonical) (hpos : 0 < b.mantissa) {k : ℤ}
    (hfine : (b.scale k).2 ≤ 2 * (b.scale k).1) : (b.nearest? k).isSome := by
  have hnear : b.readsBack k (4 * b.mantissa * (b.scale k).1 / (b.scale k).2) ∨
      b.readsBack k (4 * b.mantissa * (b.scale k).1 / (b.scale k).2 + 1) := by
    have hsplit := Nat.div_add_mod' (4 * b.mantissa * (b.scale k).1) (b.scale k).2
    have hlt := Nat.mod_lt (4 * b.mantissa * (b.scale k).1) (b.scale_pos k).2
    rcases Nat.lt_or_ge (b.scale k).2
      (2 * (4 * b.mantissa * (b.scale k).1 % (b.scale k).2)) with hmore | hless
    · have hnext := Nat.add_one_mul
        (4 * b.mantissa * (b.scale k).1 / (b.scale k).2) (b.scale k).2
      exact .inr (readsBack_of_near hb hpos (by omega) (by omega))
    · exact .inl (readsBack_of_near hb hpos (by omega) (by omega))
  unfold nearest?
  dsimp only
  rw [List.find?_isSome]
  split
  · simpa using hnear.symm
  · simpa using hnear

theorem readsBack_of_nearest? {k : ℤ} {d : ℕ} (h : b.nearest? k = some d) : b.readsBack k d := by
  unfold nearest? at h
  exact List.find?_some h

/-- The search ends with what reads back, if it is long enough. -/
theorem readsBack_search {steps : ℕ} {k : ℤ} (h : (b.nearest? (k - steps)).isSome) :
    b.readsBack (b.search steps k).exponent (b.search steps k).coefficient := by
  induction steps generalizing k with
  | zero =>
      rw [Nat.cast_zero, sub_zero] at h
      obtain ⟨d, hd⟩ := Option.isSome_iff_exists.mp h
      rw [search, hd]
      exact readsBack_of_nearest? hd
  | succ steps ih =>
      rw [search]
      split
      · rename_i d hd
        exact readsBack_of_nearest? hd
      · refine ih ?_
        rwa [sub_sub, add_comm, ← Nat.cast_succ]

/-- Whether the last grid of the search is fine enough, for a mantissa with `l + 1` digits. -/
def endsFine (l : ℕ) (e : ℤ) : Bool :=
  let units := scale ⟨0, e, false⟩ ((l + 1 + e) * 30103 / 100000 + 2 - 24)
  units.2 ≤ 2 * units.1

theorem endsFine_normal : (List.range 2046).all fun i => endsFine 52 (i - 1074) := by
  decide +kernel

theorem endsFine_subnormal : (List.range 53).all fun l => endsFine l (-1074) := by
  decide +kernel

theorem readsBack_shortest (hb : b.IsCanonical) (hpos : 0 < b.mantissa) :
    b.readsBack b.shortest.exponent b.shortest.coefficient := by
  have hlog : b.mantissa.log2 < 53 := (Nat.log2_lt hpos.ne').mpr hb.mantissa_lt
  have hfine : endsFine b.mantissa.log2 b.exponent := by
    rcases hb.min_le.eq_or_lt with hmin | hnormal
    · rw [← hmin]
      exact List.all_eq_true.mp endsFine_subnormal _ (List.mem_range.mpr hlog)
    · have hdigits : b.mantissa.log2 = 52 := by
        have hle := (Nat.le_log2 hpos.ne').mpr (hb.le_mantissa hnormal)
        omega
      obtain ⟨i, hi⟩ := Int.eq_ofNat_of_zero_le (a := b.exponent + 1074) (by omega)
      have hexponent : b.exponent = (i : ℤ) - 1074 := by omega
      have hmax := hb.le_max
      rw [hdigits, hexponent]
      exact List.all_eq_true.mp endsFine_normal i (List.mem_range.mpr (by omega))
  exact readsBack_search (isSome_nearest? hb hpos (of_decide_eq_true hfine))

theorem surrounds_zero (h : b.mantissa = 0) : b.Surrounds 0 := by
  have hpos : (0 : ℚ) < 2 ^ b.exponent := by positivity
  have hlow : (0 : ℚ) ≤ (if b.atPowerOfTwo then 1 / 4 else 1 / 2) * 2 ^ b.exponent := by
    split <;> positivity
  refine ⟨?_, ?_, fun _ => h ▸ Even.zero⟩
  · rw [h, Nat.cast_zero, zero_sub, neg_mul]
    exact neg_nonpos.mpr hlow
  · positivity

end Decimal.Binary

namespace Double

/-- The double next to a number that is not negative, whatever its sign is. Halfway between two of
them it is the one with the even mantissa. -/
structure IsNearest (q : ℚ) (x : Float) : Prop where
  finite : x.isFinite
  le : ∀ y : Float, y.isFinite → |q - magnitude x| ≤ |q - magnitude y|
  even : ∀ y : Float, y.isFinite → magnitude y ≠ magnitude x →
    |q - magnitude y| = |q - magnitude x| → Even (mantissa x)

open Decimal.Binary

theorem isNearest_of_surrounds {x : Float} (hx : x.isFinite) {q : ℚ}
    (hq : (ofFloat x).Surrounds q) : IsNearest q x := by
  obtain ⟨hmagnitude, hmantissa⟩ := magnitude_eq hx
  have hnear : ∀ y : Float, y.isFinite → magnitude y ≠ magnitude x →
      |q - magnitude x| ≤ |q - magnitude y| ∧
        (|q - magnitude y| = |q - magnitude x| → Even (mantissa x)) := by
    intro y hy
    rw [hmagnitude, hmantissa, (magnitude_eq hy).1]
    exact hq.le (isCanonical_ofFloat hx) (isCanonical_ofFloat hy)
  refine ⟨hx, fun y hy => ?_, fun y hy hne => (hnear y hy hne).2⟩
  by_cases hne : magnitude y = magnitude x
  · rw [hne]
  · exact (hnear y hy hne).1

end Double

end Backtrack
