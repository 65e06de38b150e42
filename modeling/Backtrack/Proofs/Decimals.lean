import Backtrack.Proofs.Numerals

/-!
Decimals at the beginning of a text. Both the digits before the point and those behind it can be
given back one by one, but a shorter whole part has a digit behind it where the point should be. So
only the length of the fraction is left open, and the alternatives go from all of its digits down to
the first one. The reader of doubles takes every one of these texts, so none of them is lost.
-/

namespace Backtrack

open Text Grammar

/-- A decimal at the beginning of a text: a minus sign or none, digits, a point, all digits that
follow, of which there is at least one, and the text behind them. -/
structure DecimalNumeral where
  minus : Bool
  whole : Text
  fraction : Text
  rest : Text
  whole_ne_nil : whole ≠ []
  fraction_ne_nil : fraction ≠ []
  isDigit_of_mem_whole : ∀ c ∈ whole, c.isDigit
  isDigit_of_mem_fraction : ∀ c ∈ fraction, c.isDigit
  not_digit_behind : ¬rest.head?.any Char.isDigit

namespace DecimalNumeral

variable (n : DecimalNumeral) {j : ℕ}

def sign : Text := if n.minus then ['-'] else []

def text : Text := n.sign ++ (n.whole ++ '.' :: (n.fraction ++ n.rest))

def taken (j : ℕ) : Text := n.sign ++ (n.whole ++ '.' :: n.fraction.take j)

/-- The double that this text writes: the one next to the number with these digits that has as many
places behind the point as it has digits there. -/
def value (j : ℕ) : Float :=
  let x := Float.ofScientific (decimalValue (n.whole ++ n.fraction.take j)) true
    (n.fraction.take j).length
  if n.minus then -x else x

def parts (j : ℕ) : Value :=
  .pair (if n.minus then .some (.text ['-']) else .none)
    (.pair (characters n.whole) (.pair (.text ['.']) (characters (n.fraction.take j))))

def alternative (j : ℕ) : Alternative Value := ⟨.float (n.value j), n.fraction.drop j ++ n.rest⟩

theorem taken_append (j : ℕ) : n.taken j ++ (n.fraction.drop j ++ n.rest) = n.text := by
  have hfraction : n.fraction.take j ++ (n.fraction.drop j ++ n.rest) = n.fraction ++ n.rest := by
    rw [← List.append_assoc, List.take_append_drop]
  rw [taken, text, List.append_assoc, List.append_assoc, List.cons_append, hfraction]

theorem toText_parts (j : ℕ) : (n.parts j).toText = n.taken j := by
  simp only [parts, Value.toText, toText_characters, taken, sign]
  cases n.minus <;> rfl

end DecimalNumeral

/-- The reader of doubles takes a sign or none, digits, a point and digits. -/
theorem Decimal.read?_eq {whole fraction : Text} (minus : Bool) (hwhole : whole ≠ [])
    (hfraction : fraction ≠ []) (hdigits : ∀ c ∈ whole, c.isDigit)
    (hdigits' : ∀ c ∈ fraction, c.isDigit) :
    Decimal.read? ((if minus then ['-'] else []) ++ (whole ++ '.' :: fraction)) =
      let x := Float.ofScientific (decimalValue (whole ++ fraction)) true fraction.length
      some (if minus then -x else x) := by
  have hsign : ((if minus then ['-'] else []) ++ (whole ++ '.' :: fraction)).head? = some '-' ↔
      minus := by
    cases minus with
    | true => exact iff_of_true rfl rfl
    | false => exact iff_of_false (head?_append_ne_minus hwhole hdigits _) Bool.false_ne_true
  have hunsigned : (if minus then
      ((if minus then ['-'] else []) ++ (whole ++ '.' :: fraction)).drop 1
    else (if minus then ['-'] else []) ++ (whole ++ '.' :: fraction)) =
      whole ++ '.' :: fraction := by
    cases minus <;> rfl
  have htake : (whole ++ '.' :: fraction).takeWhile (·.isDigit) = whole :=
    (List.takeWhile_append_of_pos hdigits).trans (List.append_nil whole)
  have hdrop : (whole ++ '.' :: fraction).dropWhile (·.isDigit) = '.' :: fraction :=
    List.dropWhile_append_of_pos hdigits
  have hall : fraction.all (·.isDigit) := List.all_eq_true.mpr hdigits'
  have hshape : ¬(whole.isEmpty || fraction.isEmpty || !fraction.all (·.isDigit)) := by
    simp [hwhole, hfraction, hall]
  rw [read?]
  simp only [hsign, hunsigned, htake, hdrop]
  rw [if_neg hshape, digitsValue_eq]

theorem Json.ofFloat_of_isFinite {x : Float} (h : x.isFinite) : Json.ofFloat x = .number x :=
  if_pos h

namespace DecimalNumeral

variable (n : DecimalNumeral) {j : ℕ}

theorem take_fraction_ne_nil (hj : 1 ≤ j) : n.fraction.take j ≠ [] := by
  simp [n.fraction_ne_nil, Nat.ne_of_gt hj]

theorem read?_taken (hj : 1 ≤ j) : Decimal.read? (n.taken j) = some (n.value j) :=
  Decimal.read?_eq n.minus n.whole_ne_nil (n.take_fraction_ne_nil hj) n.isDigit_of_mem_whole
    fun c hc => n.isDigit_of_mem_fraction c (List.mem_of_mem_take hc)

end DecimalNumeral

namespace Kind

open Grammar

def decimalParts : Grammar :=
  .and (.optional (char '-')) (.and (many1 digit) (.and (char '.') (many1 digit)))

theorem point_and_eq_nil {p : Grammar} {u : Text} (h : u.head? ≠ some '.') :
    (Grammar.and (char '.') p).alternatives u = [] := by
  rw [alternatives_and, alternatives_char_eq_nil h, List.flatMap_nil]

/-- Only behind all digits of the whole part there is a point, and the fraction is left open. -/
theorem alternatives_decimalParts (n : DecimalNumeral) :
    decimalParts.alternatives n.text =
      (List.range' 1 n.fraction.length).reverse.map fun j =>
        ⟨n.parts j, n.fraction.drop j ++ n.rest⟩ := by
  have hpoint : (char '.').alternatives ('.' :: (n.fraction ++ n.rest)) =
      [⟨.text ['.'], n.fraction ++ n.rest⟩] := alternatives_satisfy_cons (· == '.') '.' _
  have hfraction : (many1 digit).alternatives (n.fraction ++ n.rest) = _ :=
    alternatives_many1_satisfy n.isDigit_of_mem_fraction n.not_digit_behind
  have hpointless : ∀ u : Text, u.head?.any Char.isDigit →
      (Grammar.and (char '.') (many1 digit)).alternatives u = [] := by
    refine fun u hu => point_and_eq_nil fun hpoint => ?_
    rw [hpoint] at hu
    exact Bool.false_ne_true hu
  have hwhole : ∀ u : Text, ¬u.head?.any Char.isDigit →
      (Grammar.and (many1 digit) (.and (char '.') (many1 digit))).alternatives u = [] := by
    intro u hu
    rw [alternatives_and, many1_digit_eq_nil hu, List.flatMap_nil]
  have hunsigned : (Grammar.and (many1 digit) (.and (char '.') (many1 digit))).alternatives
      (n.whole ++ '.' :: (n.fraction ++ n.rest)) = _ :=
    alternatives_many1_satisfy_and n.whole_ne_nil n.isDigit_of_mem_whole Bool.false_ne_true
      hpointless
  rw [decimalParts, DecimalNumeral.text, DecimalNumeral.sign,
    alternatives_optional_minus n.minus hwhole n.whole_ne_nil n.isDigit_of_mem_whole, hunsigned,
    alternatives_and, hpoint, List.flatMap_singleton, hfraction]
  simp only [List.map_map]
  rfl

theorem denotes_decimalParts :
    let Digits : Language := fun s v => (s ≠ [] ∧ ∀ c ∈ s, c.isDigit) ∧ characters s = v
    decimalParts.Denotes (.Pair (.Optional (.Single (· == '-')))
      (.Pair Digits (.Pair (.Single (· == '.')) Digits))) :=
  have hdigits := (denotes_satisfy Char.isDigit).many1 (.satisfy _)
  (denotes_satisfy _).optional.and (hdigits.and ((denotes_satisfy _).and hdigits))

theorem exists_text_eq_of_mem_decimalParts {t : Text} {a : Alternative Value}
    (h : a ∈ decimalParts.alternatives t) : ∃ n : DecimalNumeral, n.text = t := by
  obtain ⟨v, r⟩ := a
  obtain ⟨_, rfl, hparts⟩ := denotes_decimalParts.mem_alternatives_iff.mp h
  obtain ⟨hsign, ⟨⟨hwhole, -⟩, ⟨⟨hpoint⟩, ⟨hfraction, -⟩⟩⟩⟩ := hparts
  obtain rfl := beq_iff_eq.mp hpoint
  obtain ⟨more, rest, rfl, hmore, hrest⟩ := exists_run Char.isDigit r
  have hne := List.append_ne_nil_of_left_ne_nil hfraction.1 more
  have hdigits := List.forall_mem_append.mpr ⟨hfraction.2, hmore⟩
  cases hsign with
  | present hminus =>
      obtain ⟨hminus⟩ := hminus
      obtain rfl := beq_iff_eq.mp hminus
      exact ⟨⟨true, _, _, rest, hwhole.1, hne, hwhole.2, hdigits, hrest⟩,
        by simp [DecimalNumeral.text, DecimalNumeral.sign]⟩
  | absent =>
      exact ⟨⟨false, _, _, rest, hwhole.1, hne, hwhole.2, hdigits, hrest⟩,
        by simp [DecimalNumeral.text, DecimalNumeral.sign]⟩

theorem read?_of_mem_decimalParts {t : Text} {a : Alternative Value}
    (h : a ∈ decimalParts.alternatives t) : ∃ x, Decimal.read? a.value.toText = some x := by
  obtain ⟨n, rfl⟩ := exists_text_eq_of_mem_decimalParts h
  rw [alternatives_decimalParts] at h
  obtain ⟨j, hj, rfl⟩ := List.mem_map.mp h
  have hpos : 1 ≤ j := (List.mem_range'_1.mp (List.mem_reverse.mp hj)).1
  exact ⟨n.value j, by rw [n.toText_parts, n.read?_taken hpos]⟩

theorem alternatives_decimal (n : DecimalNumeral) :
    decimal.alternatives n.text =
      (List.range' 1 n.fraction.length).reverse.map n.alternative := by
  rw [decimal_eq_filterMap, alternatives_filterMap, ← decimalParts, alternatives_decimalParts,
    List.filterMap_map, ← List.filterMap_eq_map]
  refine List.filterMap_congr fun j hj => ?_
  have hpos : 1 ≤ j := (List.mem_range'_1.mp (List.mem_reverse.mp hj)).1
  rw [Function.comp_apply, n.toText_parts, n.read?_taken hpos]
  rfl

theorem decimal_eq_nil {t : Text} (h : ∀ n : DecimalNumeral, n.text ≠ t) :
    decimal.alternatives t = [] := by
  have hparts : decimalParts.alternatives t = [] := by
    refine List.eq_nil_iff_forall_not_mem.mpr fun a ha => ?_
    obtain ⟨n, hn⟩ := exists_text_eq_of_mem_decimalParts ha
    exact h n hn
  rw [decimal_eq_filterMap, alternatives_filterMap, ← decimalParts, hparts, List.filterMap_nil]

theorem toList_float (n : DecimalNumeral) :
    ((float.parser n.text).alternatives ()).toList =
      (List.range' 1 n.fraction.length).reverse.map fun j =>
        ⟨.ofFloat (n.value j), n.fraction.drop j ++ n.rest⟩ := by
  rw [toList_alternatives, Kind.grammar, alternatives_decimal, List.map_map]
  rfl

theorem toList_float_eq_nil {t : Text} (h : ∀ n : DecimalNumeral, n.text ≠ t) :
    ((float.parser t).alternatives ()).toList = [] := by
  rw [toList_alternatives, Kind.grammar, decimal_eq_nil h, List.map_nil]

/-- **Decimals at the beginning of a text.** On a text that begins with a decimal, which is a minus
sign or none, digits, a point and all digits behind it, at least one on either side, the grammar of
decimals has as many alternatives as the fraction has digits. The first one takes all of them, and
each other one takes one digit less than the one before it; the value of each is what the reader of
doubles finds in the text that is taken, and as JSON it is that number as long as it is finite. On
any other text there is no alternative. The reader accepts whatever it is given, so nothing is left
out because it cannot be read. -/
theorem float_offers_fractions :
    (∀ n : DecimalNumeral,
      float.grammar.alternatives n.text =
        (List.range' 1 n.fraction.length).reverse.map n.alternative ∧
      ((float.parser n.text).alternatives ()).toList =
        ((List.range' 1 n.fraction.length).reverse.map fun j =>
          ⟨.ofFloat (n.value j), n.fraction.drop j ++ n.rest⟩) ∧
      (∀ j, (n.value j).isFinite → Json.ofFloat (n.value j) = .number (n.value j)) ∧
      (∀ j, n.taken j ++ (n.fraction.drop j ++ n.rest) = n.text) ∧
      ∀ j, 1 ≤ j → Decimal.read? (n.taken j) = some (n.value j)) ∧
    (∀ t, (∀ n : DecimalNumeral, n.text ≠ t) →
      float.grammar.alternatives t = [] ∧ ((float.parser t).alternatives ()).toList = []) ∧
    (∀ t, ∀ a ∈ decimalParts.alternatives t, ∃ x, Decimal.read? a.value.toText = some x) ∧
    ∀ t, ((float.parser t).alternatives ()).ends :=
  ⟨fun n => ⟨alternatives_decimal n, toList_float n, fun _ => Json.ofFloat_of_isFinite,
    n.taken_append, fun _ => n.read?_taken⟩,
    fun _ h => ⟨decimal_eq_nil h, toList_float_eq_nil h⟩, fun _ _ => read?_of_mem_decimalParts,
    fun t => (greedy float t).ends⟩

/-- Two digits behind the point and then a letter: two alternatives, of which the second leaves a
digit over. Digits without a point are no decimal. -/
theorem float_offers_fractions_two :
    let n : DecimalNumeral := ⟨true, ['1', '2'], ['5', '0'], ['x'], by decide, by decide,
      List.all_eq_true.mp (by decide), List.all_eq_true.mp (by decide), by decide⟩
    ((float.parser n.text).alternatives ()).toList =
        [⟨.ofFloat (n.value 2), ['x']⟩, ⟨.ofFloat (n.value 1), ['0', 'x']⟩] ∧
      (n.value 2).isFinite ∧ Json.ofFloat (n.value 2) = .number (n.value 2) ∧
      1 ≤ 2 ∧ Decimal.read? "-12.50".toList = some (n.value 2) ∧
      1 ≤ 1 ∧ Decimal.read? "-12.5".toList = some (n.value 1) ∧
      (∀ n : DecimalNumeral, n.text ≠ ['1', '2', 'x']) ∧
      float.grammar.alternatives ['1', '2', 'x'] = [] := by
  intro n
  have hnone : ∀ n : DecimalNumeral, n.text ≠ ['1', '2', 'x'] := by
    intro n htext
    have hpoint : '.' ∈ n.text := by simp [DecimalNumeral.text]
    rw [htext] at hpoint
    exact absurd hpoint (by decide)
  have hfinite : (n.value 2).isFinite := by decide +kernel
  obtain ⟨-, hjson, hnumber, -, hread⟩ := float_offers_fractions.1 n
  exact ⟨hjson, hfinite, hnumber 2 hfinite, by decide, hread 2 (by decide), by decide,
    hread 1 (by decide), hnone, (float_offers_fractions.2.1 _ hnone).1⟩

end Kind

end Backtrack
