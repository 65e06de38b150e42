import Backtrack.Proofs.CharacterRuns
import Backtrack.Proofs.Formats

/-!
Numbers at the beginning of a text. The grammar of integers offers the number that the sign and all
of the digits write, and behind it the numbers that it gets by leaving out digits from the end. What
does not fit into 64 bits is left out of these; as digits only make a number larger, this can only
be a number that is followed by longer ones of the same kind.
-/

namespace Backtrack

namespace Text

theorem head?_append_ne_minus {s : Text} (hne : s ≠ []) (hs : ∀ c ∈ s, c.isDigit) (r : Text) :
    (s ++ r).head? ≠ some '-' := by
  obtain ⟨c, s, rfl⟩ := List.exists_cons_of_ne_nil hne
  rintro ⟨⟩
  exact Bool.false_ne_true (hs '-' List.mem_cons_self)

theorem decimalValue_append (s t : Text) :
    decimalValue (s ++ t) = decimalValue s * 10 ^ t.length + decimalValue t := by
  rw [decimalValue, List.reverse_append, List.map_append, Nat.ofDigits_append, List.length_map,
    List.length_reverse, Nat.add_comm, Nat.mul_comm]
  rfl

theorem decimalValue_append_singleton (digits : Text) (c : Char) :
    decimalValue (digits ++ [c]) = 10 * decimalValue digits + (c.toNat - '0'.toNat) := by
  rw [decimalValue_append, Nat.mul_comm]
  rfl

theorem decimalValue_take_le (digits : Text) (j : ℕ) :
    decimalValue (digits.take j) ≤ decimalValue (digits.take (j + 1)) := by
  rw [List.take_add_one]
  cases digits[j]? with
  | none => rw [Option.toList_none, List.append_nil]
  | some c =>
      rw [Option.toList_some, decimalValue_append_singleton]
      omega

end Text

open Text

/-- A number at the beginning of a text: a minus sign or none, all digits that follow, of which
there is at least one, and the text behind them. -/
structure Numeral where
  minus : Bool
  digits : Text
  rest : Text
  digits_ne_nil : digits ≠ []
  isDigit_of_mem : ∀ c ∈ digits, c.isDigit
  not_digit_behind : ¬rest.head?.any Char.isDigit

namespace Numeral

def sign (n : Numeral) : Text := if n.minus then ['-'] else []

def text (n : Numeral) : Text := n.sign ++ (n.digits ++ n.rest)

def value (n : Numeral) (j : ℕ) : ℤ :=
  if n.minus then -decimalValue (n.digits.take j) else decimalValue (n.digits.take j)

def Fits (n : Numeral) (j : ℕ) : Prop := -2 ^ 63 ≤ n.value j ∧ n.value j < 2 ^ 63

instance (n : Numeral) (j : ℕ) : Decidable (n.Fits j) := by
  unfold Fits
  infer_instance

def alternative (n : Numeral) (j : ℕ) : Alternative Value :=
  ⟨.int (.ofInt (n.value j)), n.digits.drop j ++ n.rest⟩

theorem exists_text_eq {s : Text} {m : ℤ} (h : WritesInt s m) (r : Text) :
    ∃ n : Numeral, n.text = s ++ r := by
  obtain ⟨more, rest, rfl, hmore, hrest⟩ := exists_run Char.isDigit r
  cases h with
  | plain hne hdigits =>
      refine ⟨⟨false, s ++ more, rest, List.append_ne_nil_of_left_ne_nil hne more,
        List.forall_mem_append.mpr ⟨hdigits, hmore⟩, hrest⟩, ?_⟩
      exact List.append_assoc s more rest
  | @minus digits hne hdigits =>
      refine ⟨⟨true, digits ++ more, rest, List.append_ne_nil_of_left_ne_nil hne more,
        List.forall_mem_append.mpr ⟨hdigits, hmore⟩, hrest⟩, ?_⟩
      exact congrArg ('-' :: ·) (List.append_assoc digits more rest)

/-! ### Which numbers fit -/

variable (n : Numeral) {j : ℕ}

theorem take_ne_nil (hj : 1 ≤ j) : n.digits.take j ≠ [] := by
  simp [n.digits_ne_nil, Nat.ne_of_gt hj]

theorem writesInt (hj : 1 ≤ j) : WritesInt (n.sign ++ n.digits.take j) (n.value j) := by
  have hne := n.take_ne_nil hj
  have hdigits : ∀ c ∈ n.digits.take j, c.isDigit :=
    fun c hc => n.isDigit_of_mem c (List.mem_of_mem_take hc)
  unfold sign value
  cases n.minus with
  | false => exact .plain hne hdigits
  | true => exact .minus hne hdigits

/-- The reader of integers finds the number unless it does not fit. -/
theorem readInt64?_eq (hj : 1 ≤ j) :
    readInt64? (n.sign ++ n.digits.take j) =
      if n.Fits j then some (.ofInt (n.value j)) else none := by
  have hfits : Int64.minValue.toInt ≤ n.value j ∧ n.value j ≤ Int64.maxValue.toInt ↔ n.Fits j := by
    rw [Int64.toInt_minValue, Int64.toInt_maxValue, Int.le_sub_one_iff]
    rfl
  rw [readInt64?, readInt?_eq_some_iff.mpr (n.writesInt hj)]
  simp only [hfits]

theorem Fits.of_succ (h : n.Fits (j + 1)) : n.Fits j := by
  have hle := decimalValue_take_le n.digits j
  unfold Fits value at h ⊢
  cases hminus : n.minus with
  | false =>
      rw [hminus] at h
      simp only [Bool.false_eq_true, if_false] at h ⊢
      omega
  | true =>
      rw [hminus] at h
      simp only [if_true] at h ⊢
      omega

theorem Fits.of_le {n : Numeral} {k : ℕ} (h : n.Fits k) (hjk : j ≤ k) : n.Fits j := by
  induction k, hjk using Nat.le_induction with
  | base => exact h
  | succ k _ ih => exact ih (h.of_succ)

theorem fits_one : n.Fits 1 := by
  obtain ⟨c, digits, hdigits⟩ := List.exists_cons_of_ne_nil n.digits_ne_nil
  have hc := toNat_of_isDigit (n.isDigit_of_mem c (hdigits ▸ List.mem_cons_self))
  have hvalue : decimalValue (n.digits.take 1) = c.toNat - 48 := by
    rw [hdigits, List.take_one, List.head?_cons, Option.toList_some, ← digitsValue_eq]
    exact Nat.zero_add _
  unfold Fits value
  rw [hvalue]
  split <;> omega

/-- Of the numbers with at least one digit the longest that fits. -/
theorem exists_longest : ∃ longest, 1 ≤ longest ∧ longest ≤ n.digits.length ∧
    ∀ j ≤ n.digits.length, n.Fits j ↔ j ≤ longest := by
  have hpos := List.length_pos_of_ne_nil n.digits_ne_nil
  refine ⟨Nat.findGreatest n.Fits n.digits.length, Nat.le_findGreatest hpos n.fits_one,
    Nat.findGreatest_le _, fun j hj => ⟨fun h => Nat.le_findGreatest hj h, fun hle => ?_⟩⟩
  exact (Nat.findGreatest_spec hpos n.fits_one).of_le hle

end Numeral

namespace Grammar

/-! ### What the grammar of integers offers -/

theorem many1_digit_eq_nil {t : Text} (h : ¬t.head?.any Char.isDigit) :
    (many1 digit).alternatives t = [] :=
  alternatives_many1_satisfy (s := []) (fun _ hc => absurd hc List.not_mem_nil) h

/-- Behind a minus sign, what cannot begin with one is read behind the sign. -/
theorem alternatives_signed_minus {p : Grammar} {u : Text} (h : p.alternatives ('-' :: u) = []) :
    (and (optional (char '-')) p).alternatives ('-' :: u) =
      (p.alternatives u).map (Alternative.map (.pair (.some (.text ['-'])))) := by
  have hminus : (char '-').alternatives ('-' :: u) = [⟨.text ['-'], u⟩] :=
    alternatives_satisfy_cons (· == '-') '-' u
  rw [alternatives_and, alternatives_optional, hminus, List.map_singleton, List.singleton_append,
    List.flatMap_cons, List.flatMap_singleton, h, List.map_nil, List.append_nil]
  rfl

theorem alternatives_signed_plain {p : Grammar} {t : Text} (h : (char '-').alternatives t = []) :
    (and (optional (char '-')) p).alternatives t =
      (p.alternatives t).map (Alternative.map (.pair .none)) := by
  rw [alternatives_and, alternatives_optional, h, List.map_nil, List.nil_append,
    List.flatMap_singleton]

/-- A minus sign or none, and behind it what begins with digits only. -/
theorem alternatives_optional_minus {p : Grammar} {s r : Text} (minus : Bool)
    (hp : ∀ u, ¬u.head?.any Char.isDigit → p.alternatives u = [])
    (hne : s ≠ []) (hs : ∀ c ∈ s, c.isDigit) :
    (and (optional (char '-')) p).alternatives ((if minus then ['-'] else []) ++ (s ++ r)) =
      (p.alternatives (s ++ r)).map
        (Alternative.map (.pair (if minus then .some (.text ['-']) else .none))) := by
  cases minus with
  | true => exact alternatives_signed_minus (hp _ Bool.false_ne_true)
  | false =>
      exact alternatives_signed_plain (alternatives_char_eq_nil (head?_append_ne_minus hne hs r))

/-- A minus sign or none, and one or more digits: the sign with as many of the digits as there are,
and then with fewer and fewer of them. -/
theorem alternatives_signed (n : Numeral) :
    (and (optional (char '-')) (many1 digit)).alternatives n.text =
      (List.range' 1 n.digits.length).reverse.map fun j =>
        ⟨.pair (if n.minus then .some (.text ['-']) else .none) (characters (n.digits.take j)),
          n.digits.drop j ++ n.rest⟩ := by
  have hdigits : (many1 digit).alternatives (n.digits ++ n.rest) = _ :=
    alternatives_many1_satisfy n.isDigit_of_mem n.not_digit_behind
  rw [Numeral.text, Numeral.sign, alternatives_optional_minus n.minus
    (fun _ => many1_digit_eq_nil) n.digits_ne_nil n.isDigit_of_mem, hdigits, List.map_map]
  rfl

theorem alternatives_int (n : Numeral) :
    int.alternatives n.text =
      ((List.range' 1 n.digits.length).reverse.filter fun j => n.Fits j).map n.alternative := by
  have hread : ∀ j ∈ (List.range' 1 n.digits.length).reverse,
      ((readInt64? (Value.pair (if n.minus then .some (.text ['-']) else .none)
        (characters (n.digits.take j))).toText).map Value.int).map
          (Alternative.mk · (n.digits.drop j ++ n.rest)) =
        if n.Fits j then some (n.alternative j) else none := by
    intro j hj
    have hpos : 1 ≤ j := (List.mem_range'_1.mp (List.mem_reverse.mp hj)).1
    have htext : (Value.pair (if n.minus then .some (.text ['-']) else .none)
        (characters (n.digits.take j))).toText = n.sign ++ n.digits.take j := by
      rw [Value.toText, toText_characters, Numeral.sign]
      cases n.minus <;> rfl
    rw [htext, n.readInt64?_eq hpos]
    split <;> rfl
  rw [int_eq_filterMap, alternatives_filterMap, alternatives_signed, List.filterMap_map,
    ← List.filterMap_eq_map, List.filterMap_filter]
  refine List.filterMap_congr fun j hj => ?_
  simp only [Function.comp_apply, hread j hj, decide_eq_true_eq]

theorem int_eq_nil {t : Text} (h : ∀ n : Numeral, n.text ≠ t) : int.alternatives t = [] := by
  rw [List.eq_nil_iff_forall_not_mem]
  rintro ⟨v, r⟩ hmem
  obtain ⟨s, rfl, m, hwrites, -⟩ := denotes_int.mem_alternatives_iff.mp hmem
  obtain ⟨n, hn⟩ := Numeral.exists_text_eq hwrites.writes r
  exact h n hn

theorem LongestFirst.greedy {g : Grammar} {cls : Char → Bool} (h : g.LongestFirst cls) (t : Text) :
    (g.under []).Greedy t where
  ends := ends_under_nil g t
  suffix := fun _ => rest_suffix
  growing := by
    have hgrowing := List.pairwise_map.mp (h t).growing
    exact hgrowing

theorem runComplete_int (m : Int64) :
    ((int.under []).runComplete (ofInt m.toInt)).result = some (.ok (.int m)) := by
  rw [(longestFirst_int.greedy _).runComplete_eq_ok_iff]
  exact denotes_int.mem_alternatives_iff.mpr
    ⟨_, List.append_nil _, m, writesInt64_ofInt m, rfl⟩

theorem filter_fits (n : Numeral) {longest : ℕ} (hle : longest ≤ n.digits.length)
    (hlongest : ∀ j ≤ n.digits.length, n.Fits j ↔ j ≤ longest) :
    ((List.range' 1 n.digits.length).reverse.filter fun j => n.Fits j) =
      (List.range' 1 longest).reverse := by
  have hsplit : List.range' 1 n.digits.length =
      List.range' 1 longest ++ List.range' (1 + longest) (n.digits.length - longest) := by
    rw [List.range'_append_1, Nat.add_sub_cancel' hle]
  rw [hsplit, List.reverse_append, List.filter_append, List.filter_eq_nil_iff.mpr ?more,
    List.filter_eq_self.mpr ?fitting, List.nil_append]
  case more =>
    intro j hj hfits
    have hj := List.mem_range'_1.mp (List.mem_reverse.mp hj)
    have hle := (hlongest j (by omega)).mp (of_decide_eq_true hfits)
    omega
  case fitting =>
    intro j hj
    have hj := List.mem_range'_1.mp (List.mem_reverse.mp hj)
    exact decide_eq_true ((hlongest j (by omega)).mpr (by omega))

theorem head?_alternatives_int (n : Numeral) {longest : ℕ} (hpos : 1 ≤ longest)
    (hle : longest ≤ n.digits.length)
    (hlongest : ∀ j ≤ n.digits.length, n.Fits j ↔ j ≤ longest) :
    (int.alternatives n.text).head? = some (n.alternative longest) := by
  obtain ⟨k, rfl⟩ := Nat.exists_eq_add_of_le hpos
  rw [alternatives_int, filter_fits n hle hlongest, Nat.add_comm 1 k, List.range'_1_concat,
    List.reverse_append, List.reverse_singleton, List.singleton_append, List.map_cons,
    List.head?_cons, Nat.add_comm 1 k]

/-- **Integers at the beginning of a text.** On a text that begins with a number, which is a minus
sign or none and all digits behind it, at least one, the grammar of integers offers the integers
that the sign writes with all of the digits, then without the last digit, and so on down to a single
digit; those that do not fit into 64 bits are left out. If the integer of some digits does not fit,
nor does that of one more, so what is left out comes first, and the first alternative is the longest
that fits; there always is one. On any other text there is no alternative. And a run for the whole
decimal text of a 64-bit integer finds this integer. -/
theorem int_offers_digits :
    (∀ n : Numeral,
      int.alternatives n.text =
        ((List.range' 1 n.digits.length).reverse.filter fun j => n.Fits j).map n.alternative ∧
      (∀ j, n.Fits j → (Int64.ofInt (n.value j)).toInt = n.value j) ∧
      (∀ j, ¬n.Fits j → ¬n.Fits (j + 1)) ∧
      ∃ longest, 1 ≤ longest ∧ longest ≤ n.digits.length ∧
        (∀ j ≤ n.digits.length, n.Fits j ↔ j ≤ longest) ∧
        (int.alternatives n.text).head? = some (n.alternative longest)) ∧
    (∀ t, (∀ n : Numeral, n.text ≠ t) → int.alternatives t = []) ∧
    (∀ t, ((int.under [] t).alternatives ()).ends) ∧
    ∀ m : Int64,
      ((int.under []).runComplete (ofInt m.toInt)).result = some (.ok (.int m)) := by
  refine ⟨fun n => ⟨alternatives_int n, fun j h => Int64.toInt_ofInt_of_le h.1 h.2,
    fun j h hsucc => h hsucc.of_succ, ?_⟩, fun t => int_eq_nil, ends_under_nil int, runComplete_int⟩
  obtain ⟨longest, hpos, hle, hlongest⟩ := n.exists_longest
  exact ⟨longest, hpos, hle, hlongest, head?_alternatives_int n hpos hle hlongest⟩

/-- The least integer of 64 bits with one more digit, and then a comma: the first alternative leaves
over this digit. A minus sign alone is no number. -/
theorem int_offers_digits_least :
    let n : Numeral := ⟨true, "92233720368547758080".toList, [','], by decide,
      List.all_eq_true.mp (by decide), by decide⟩
    n.Fits 19 ∧ ¬n.Fits 20 ∧ ¬n.Fits 21 ∧
      (int.alternatives n.text).head? = some ⟨.int Int64.minValue, ['0', ',']⟩ ∧
      (∀ n : Numeral, n.text ≠ ['-', 'x']) ∧ int.alternatives ['-', 'x'] = [] := by
  intro n
  have hfits : n.Fits 19 := by decide +kernel
  have hmore : ¬n.Fits 20 := by decide +kernel
  obtain ⟨-, -, hlonger, longest, -, hle, hlongest, hfirst⟩ := int_offers_digits.1 n
  have hlast : longest = 19 := by
    have hlower := (hlongest 19 (by decide)).mp hfits
    have hupper := mt (hlongest 20 (by decide)).mpr hmore
    omega
  have hnone : ∀ n : Numeral, n.text ≠ ['-', 'x'] := by
    rintro ⟨minus, digits, rest, hne, hall, hrest⟩ htext
    obtain ⟨c, digits, rfl⟩ := List.exists_cons_of_ne_nil hne
    have hc := hall c List.mem_cons_self
    cases minus with
    | true =>
        obtain ⟨-, hbehind⟩ := List.cons.inj htext
        obtain ⟨rfl, -⟩ := List.cons.inj hbehind
        exact absurd hc Bool.false_ne_true
    | false =>
        obtain ⟨rfl, -⟩ := List.cons.inj htext
        exact absurd hc Bool.false_ne_true
  refine ⟨hfits, hmore, hlonger 20 hmore, ?_, hnone, int_offers_digits.2.1 _ hnone⟩
  rw [hfirst, hlast]
  rfl

end Grammar

end Backtrack
