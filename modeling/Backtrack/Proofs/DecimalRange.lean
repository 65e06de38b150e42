import Backtrack.Proofs.Decimals
import Backtrack.Proofs.Doubles

/-!
Decimals beyond the doubles. The reader of doubles refuses no text of a decimal: a number that is
too large is read as infinity, which has no form in JSON but `null`. The digits behind the point
make no difference to that, so on a text that begins with a decimal either all alternatives are
numbers, or all of them are `null`. The grammar of integers leaves out what it cannot represent.
-/

namespace Backtrack

open Text Double

namespace Text

theorem decimalValue_lt {s : Text} (hs : ∀ c ∈ s, c.isDigit) : decimalValue s < 10 ^ s.length := by
  have hdigits : ∀ d ∈ s.reverse.map fun c => c.toNat - '0'.toNat, d < 10 := by
    intro d hd
    obtain ⟨c, hc, rfl⟩ := List.mem_map.mp hd
    have hc := toNat_of_isDigit (hs c (List.mem_reverse.mp hc))
    have hzero : '0'.toNat = 48 := rfl
    omega
  have hlt := Nat.ofDigits_lt_base_pow_length (by decide) hdigits
  rwa [List.length_map, List.length_reverse] at hlt

end Text

namespace DecimalNumeral

variable (n : DecimalNumeral)

/-- Digits behind the point do not lift a number over a bound that is a whole number. -/
theorem decimalValue_lt_iff (b j : ℕ) :
    decimalValue (n.whole ++ n.fraction.take j) < b * 10 ^ (n.fraction.take j).length ↔
      decimalValue n.whole < b := by
  have hpos : 0 < 10 ^ (n.fraction.take j).length := Nat.pow_pos (by decide)
  have hfraction : decimalValue (n.fraction.take j) < 10 ^ (n.fraction.take j).length :=
    decimalValue_lt fun c hc => n.isDigit_of_mem_fraction c (List.mem_of_mem_take hc)
  rw [decimalValue_append, Nat.mul_comm, ← Nat.div_lt_iff_lt_mul hpos, Nat.mul_add_div hpos,
    Nat.div_eq_of_lt hfraction, Nat.add_zero]

theorem isFinite_value (j : ℕ) : (n.value j).isFinite ↔ decimalValue n.whole < overflowBound := by
  have hfinite := isFinite_ofScientific (decimalValue (n.whole ++ n.fraction.take j))
    (n.fraction.take j).length
  rw [n.decimalValue_lt_iff] at hfinite
  unfold value
  cases n.minus with
  | false => exact hfinite
  | true => exact (isFinite_neg _).trans hfinite

end DecimalNumeral

namespace Json

theorem ofFloat_eq_number_iff {x : Float} :
    (∃ y : Float, y.isFinite ∧ ofFloat x = .number y) ↔ x.isFinite := by
  constructor
  · rintro ⟨y, hy, heq⟩
    rw [ofFloat] at heq
    split at heq
    · assumption
    · cases heq
  · exact fun h => ⟨x, h, ofFloat_of_isFinite h⟩

theorem ofFloat_eq_null_iff {x : Float} : ofFloat x = .null ↔ ¬x.isFinite := by
  constructor
  · intro heq h
    rw [ofFloat, if_pos h] at heq
    cases heq
  · exact fun h => if_neg h

end Json

namespace Kind

open Grammar

theorem exists_integer_of_mem_int {t : Text} {a : Alternative Json}
    (ha : a ∈ ((int.parser t).alternatives ()).toList) :
    ∃ m : Int64, a.value = .integer m.toInt := by
  rw [toList_alternatives] at ha
  obtain ⟨⟨v, r⟩, hv, rfl⟩ := List.mem_map.mp ha
  obtain ⟨-, -, m, -, rfl⟩ := denotes_int.mem_alternatives_iff.mp hv
  exact ⟨m, rfl⟩

/-- **The range of decimals.** The grammar of decimals has alternatives only on texts that begin
with a decimal. Each of them is a number if and only if the number before the point is below the
bound of the doubles, and `null` from the bound on. The alternatives of the grammar of integers are
integers on all texts. -/
theorem float_is_number_iff (t : Text) :
    (∀ a ∈ ((float.parser t).alternatives ()).toList,
      (∃ n : DecimalNumeral, n.text = t) ∧
      ∀ n : DecimalNumeral, n.text = t →
        ((∃ x : Float, x.isFinite ∧ a.value = .number x) ↔ decimalValue n.whole < overflowBound) ∧
        (a.value = .null ↔ overflowBound ≤ decimalValue n.whole)) ∧
    ∀ a ∈ ((int.parser t).alternatives ()).toList, ∃ m : Int64, a.value = .integer m.toInt := by
  refine ⟨fun a ha => ⟨?_, ?_⟩, fun a => exists_integer_of_mem_int⟩
  · by_contra hnone
    rw [toList_float_eq_nil (not_exists.mp hnone)] at ha
    exact List.not_mem_nil ha
  · rintro n rfl
    rw [toList_float] at ha
    obtain ⟨j, -, rfl⟩ := List.mem_map.mp ha
    rw [Json.ofFloat_eq_number_iff, Json.ofFloat_eq_null_iff, n.isFinite_value, Nat.not_lt]
    exact ⟨Iff.rfl, Iff.rfl⟩

/-- One and a half is a number, and its beginning an integer. -/
theorem float_is_number_iff_small :
    let n : DecimalNumeral := ⟨false, ['1'], ['5'], [], by decide, by decide,
      List.all_eq_true.mp (by decide), List.all_eq_true.mp (by decide), by decide⟩
    let a : Alternative Json := ⟨.ofFloat (n.value 1), []⟩
    let b : Alternative Json := ⟨.integer 1, ['.', '5']⟩
    a ∈ ((float.parser ['1', '.', '5']).alternatives ()).toList ∧
      decimalValue n.whole < overflowBound ∧ (∃ x : Float, x.isFinite ∧ a.value = .number x) ∧
      b ∈ ((int.parser ['1', '.', '5']).alternatives ()).toList ∧
      ∃ m : Int64, b.value = .integer m.toInt := by
  intro n a b
  have ha : a ∈ ((float.parser n.text).alternatives ()).toList := by
    rw [toList_float]
    exact List.mem_cons_self
  have hone : decimalValue n.whole < 2 ^ 53 := by decide
  have hlt : decimalValue n.whole < overflowBound := hone.trans_le two_pow_le_overflowBound
  have hb : b ∈ ((int.parser n.text).alternatives ()).toList := by
    have hone : WritesInt64 ['1'] (1 : Int64).toInt := readInt64?_eq_some_iff.mp (by decide)
    have hint : ⟨.int 1, ['.', '5']⟩ ∈ int.grammar.alternatives n.text :=
      denotes_int.mem_alternatives_iff.mpr ⟨['1'], rfl, 1, hone, rfl⟩
    rw [toList_alternatives]
    exact List.mem_map_of_mem hint
  obtain ⟨hdecimal, hinteger⟩ := float_is_number_iff n.text
  exact ⟨ha, hlt, ((hdecimal a ha).2 n rfl).1.mpr hlt, hb, hinteger b hb⟩

/-- One with 309 zeros before the point is beyond the doubles, and has an alternative all the same,
which is `null`. -/
theorem float_is_null_past_bound :
    ((float.parser ('1' :: List.replicate 309 '0' ++ ['.', '0'])).alternatives ()).toList =
      [⟨.null, []⟩] := by
  let n : DecimalNumeral := ⟨false, '1' :: List.replicate 309 '0', ['0'], [], by decide, by decide,
    List.all_eq_true.mp (by decide +kernel), List.all_eq_true.mp (by decide), by decide⟩
  have hlarge : ¬decimalValue n.whole < overflowBound := by decide +kernel
  have hnull : Json.ofFloat (n.value 1) = .null :=
    Json.ofFloat_eq_null_iff.mpr (mt (n.isFinite_value 1).mp hlarge)
  have halternatives : ((float.parser n.text).alternatives ()).toList =
      [⟨.ofFloat (n.value 1), []⟩] := toList_float n
  rwa [hnull] at halternatives

end Kind

end Backtrack
