import Backtrack.Proofs.JsonTexts
import Backtrack.Proofs.NearestDoubles
import Backtrack.Proofs.Numerals
import Backtrack.Proofs.Skipping

/-!
What the text of a JSON value says. Every form of value has its own texts, and strings and numbers
are given by what they spell and write, not by how they are printed: a string by its characters, an
integer by its digits, a double by a decimal that is nearer to it than to any other double. What is
printed for a value says this value, and the reader takes it as a whole.
-/

namespace Backtrack

open Text

namespace Json

/-! ### Numbers with a point -/

inductive WritesPlaces : Text → Text → Prop
  | none : WritesPlaces [] []
  | point {digits : Text} (h : AreDigits digits) : WritesPlaces ('.' :: digits) digits

/-- An exponent, or nothing if it is zero. -/
inductive WritesExponent : Text → ℤ → Prop
  | none : WritesExponent [] 0
  | plus {c : Char} {sign digits : Text} (hc : c ∈ ['e', 'E']) (hsign : sign ∈ [[], ['+']])
      (h : AreDigits digits) : WritesExponent (c :: (sign ++ digits)) (decimalValue digits)
  | minus {c : Char} {digits : Text} (hc : c ∈ ['e', 'E']) (h : AreDigits digits) :
      WritesExponent (c :: '-' :: digits) (-decimalValue digits)

inductive WritesMagnitude : Text → ℚ → Prop
  | mk {whole fraction places exponent : Text} {e : ℤ} (hw : IsWhole whole)
      (hf : WritesPlaces fraction places) (he : WritesExponent exponent e) :
      WritesMagnitude (whole ++ (fraction ++ exponent))
        (decimalValue (whole ++ places) * 10 ^ (e - places.length))

inductive WritesDouble : Text → Float → Prop
  | plus {s : Text} {x : Float} {q : ℚ} (hx : x.toBits.toNat < 2 ^ 63) (h : WritesMagnitude s q)
      (hq : Double.IsNearest q x) : WritesDouble s x
  | minus {s : Text} {x : Float} {q : ℚ} (hx : 2 ^ 63 ≤ x.toBits.toNat) (h : WritesMagnitude s q)
      (hq : Double.IsNearest q x) : WritesDouble ('-' :: s) x

variable {s t : Text} {q : ℚ}

theorem WritesMagnitude.isMagnitude (h : WritesMagnitude s q) : IsMagnitude s := by
  obtain ⟨hw, hf, he⟩ := h
  refine .mk hw ?_ ?_
  · cases hf with
    | none => exact .none
    | point h => exact .point h
  · cases he with
    | none => exact .none
    | plus hc hsign h =>
        refine .letter hc ?_ h
        simp only [List.mem_cons, List.not_mem_nil, or_false] at hsign ⊢
        exact hsign.imp_right .inl
    | minus hc h =>
        have hsign : ['-'] ∈ [[], ['+'], ['-']] := by decide
        exact .letter hc hsign h

theorem isWhole_cons {d : Char} (hd : d ≠ '0') (h : ∀ c ∈ d :: s, c.isDigit) : IsWhole (d :: s) :=
  ⟨⟨List.cons_ne_nil d s, h⟩, fun hzero => absurd (Option.some.inj hzero) hd⟩

theorem WritesMagnitude.of_places {whole places exponent : Text} {e : ℤ} (hw : IsWhole whole)
    (hp : AreDigits places) (he : WritesExponent exponent e)
    (hq : q = decimalValue (whole ++ places) * 10 ^ (e - places.length)) :
    WritesMagnitude (whole ++ '.' :: (places ++ exponent)) q := by
  rw [hq]
  exact .mk hw (.point hp) he

end Json

namespace Decimal

open Json

theorem areDigits_ofNat (n : ℕ) : AreDigits (ofNat n) := (isWhole_ofNat n).1

theorem writesExponent (e : ℤ) :
    WritesExponent ('e' :: (if 0 ≤ e then '+' else '-') :: ofNat e.natAbs) e := by
  split
  · rename_i hsign
    have h : WritesExponent ('e' :: (['+'] ++ ofNat e.natAbs)) (decimalValue (ofNat e.natAbs)) :=
      .plus (by decide) (by decide) (areDigits_ofNat e.natAbs)
    rwa [decimalValue_ofNat, Int.natAbs_of_nonneg hsign] at h
  · rename_i hsign
    have h : WritesExponent ('e' :: '-' :: ofNat e.natAbs) (-decimalValue (ofNat e.natAbs)) :=
      .minus (by decide) (areDigits_ofNat e.natAbs)
    rwa [decimalValue_ofNat, Int.ofNat_natAbs_of_nonpos (by omega), neg_neg] at h

theorem decimalValue_zeros (n : ℕ) : decimalValue (List.replicate n '0') = 0 := by
  induction n with
  | zero => rfl
  | succ n ih => rw [List.replicate_succ', decimalValue_append_singleton, ih]; rfl

theorem isDigit_of_mem_zeros {n : ℕ} {c : Char} (h : c ∈ List.replicate n '0') : c.isDigit := by
  rw [List.eq_of_mem_replicate h]
  rfl

section Layout

variable {d : Char} {more : Text}

theorem writesMagnitude_whole (hd : d ≠ '0') (h : ∀ c ∈ d :: more, c.isDigit) (k : ℕ) :
    WritesMagnitude (d :: more ++ List.replicate k '0' ++ ['.', '0'])
      (decimalValue (d :: more) * 10 ^ k) := by
  have hwhole : IsWhole (d :: more ++ List.replicate k '0') :=
    isWhole_cons hd (List.forall_mem_append.mpr ⟨h, fun c => isDigit_of_mem_zeros⟩)
  have hplaces : AreDigits ['0'] := by decide
  have hzero : decimalValue ['0'] = 0 := rfl
  refine .of_places hwhole hplaces .none ?_
  rw [decimalValue_append, decimalValue_append, decimalValue_zeros, hzero, List.length_replicate]
  simp

/-- The point stands between the digits. -/
theorem writesMagnitude_split (hd : d ≠ '0') (h : ∀ c ∈ d :: more, c.isDigit) {i : ℕ}
    (hi : i < more.length) :
    WritesMagnitude ((d :: more).take (i + 1) ++ '.' :: (d :: more).drop (i + 1))
      (decimalValue (d :: more) * 10 ^ (-(more.length - i : ℕ) : ℤ)) := by
  have hwhole : IsWhole ((d :: more).take (i + 1)) :=
    isWhole_cons hd fun c hc => h c (List.mem_of_mem_take (i := i + 1) hc)
  have hplaces : AreDigits ((d :: more).drop (i + 1)) :=
    ⟨by simpa using hi, fun c hc => h c (List.mem_of_mem_drop hc)⟩
  have hwrites := WritesMagnitude.of_places hwhole hplaces .none rfl
  rwa [List.append_nil, List.take_append_drop, List.length_drop, List.length_cons,
    Nat.add_sub_add_right, zero_sub] at hwrites

/-- All digits stand behind the point. -/
theorem writesMagnitude_small (h : ∀ c ∈ d :: more, c.isDigit) (n : ℕ) :
    WritesMagnitude ('0' :: '.' :: List.replicate n '0' ++ d :: more)
      (decimalValue (d :: more) * 10 ^ (-(n + more.length + 1 : ℕ) : ℤ)) := by
  have hplaces : AreDigits (List.replicate n '0' ++ d :: more) := by
    refine ⟨List.append_ne_nil_of_right_ne_nil _ (List.cons_ne_nil d more), ?_⟩
    rw [List.forall_mem_append]
    exact ⟨fun c => isDigit_of_mem_zeros, h⟩
  have hwhole : IsWhole ['0'] := by decide
  have hwrites := WritesMagnitude.of_places hwhole hplaces .none rfl
  have hvalue : decimalValue (['0'] ++ (List.replicate n '0' ++ d :: more)) =
      decimalValue (d :: more) := by
    rw [← List.append_assoc, decimalValue_append, ← List.replicate_one, ← List.replicate_add,
      decimalValue_zeros, Nat.zero_mul, Nat.zero_add]
  rw [hvalue, List.append_nil, zero_sub, List.length_append, List.length_replicate,
    List.length_cons, ← Nat.add_assoc] at hwrites
  exact hwrites

/-- The point stands behind the first digit, if there is one more. -/
theorem writesMagnitude_scientific (hd : d ≠ '0') (h : ∀ c ∈ d :: more, c.isDigit) {power : Text}
    {e : ℤ} (he : WritesExponent power e) :
    WritesMagnitude
      (match d :: more with
        | first :: second :: more => first :: '.' :: second :: more ++ power
        | _ => d :: more ++ power)
      (decimalValue (d :: more) * 10 ^ (e - more.length)) := by
  cases more with
  | nil =>
      have hwrites := WritesMagnitude.mk (isWhole_cons hd h) .none he
      exact hwrites
  | cons second more =>
      have hplaces : AreDigits (second :: more) :=
        ⟨List.cons_ne_nil second more, fun c hc => h c (List.mem_cons_of_mem d hc)⟩
      have hwhole : IsWhole [d] := isWhole_cons hd (by simpa using h d List.mem_cons_self)
      exact WritesMagnitude.of_places hwhole hplaces he rfl

end Layout

/-- The text of a positive decimal writes it. -/
theorem writesMagnitude_toText (style : Style) {x : Decimal} (hx : 0 < x.coefficient) :
    WritesMagnitude (x.toText style) (x.coefficient * 10 ^ x.exponent) := by
  have hdigits := areDigits_ofNat x.coefficient
  have hhead := head?_ofNat_ne_zero hx
  have hvalue := decimalValue_ofNat x.coefficient
  unfold toText
  dsimp only
  generalize ofNat x.coefficient = digits at *
  rw [← hvalue]
  obtain ⟨d, more, rfl⟩ := List.exists_cons_of_ne_nil hdigits.1
  have hd : d ≠ '0' := fun h => hhead (congrArg some h)
  have hlength : x.exponent + ((d :: more).length : ℤ) - 1 = x.exponent + more.length := by
    rw [List.length_cons]
    omega
  rw [hlength]
  split
  · split
    · rename_i hwhole
      have hwrites := writesMagnitude_whole hd hdigits.2 x.exponent.toNat
      rwa [← zpow_natCast, Int.toNat_of_nonneg hwhole] at hwrites
    · split
      · rename_i hfraction hsplit
        have hwrites := writesMagnitude_split hd hdigits.2 (i := (x.exponent + more.length).toNat)
          (by omega)
        have hexponent : (-(more.length - (x.exponent + more.length).toNat : ℕ) : ℤ) =
            x.exponent := by omega
        rwa [hexponent] at hwrites
      · rename_i hfraction hsmall
        have hwrites := writesMagnitude_small hdigits.2 (-(x.exponent + more.length) - 1).toNat
        have hexponent : (-((-(x.exponent + more.length) - 1).toNat + more.length + 1 : ℕ) : ℤ) =
            x.exponent := by omega
        rwa [hexponent] at hwrites
  · have hwrites := writesMagnitude_scientific hd hdigits.2
      (writesExponent (x.exponent + more.length))
    rwa [add_sub_cancel_right] at hwrites

end Decimal

namespace Json

open Decimal.Binary in
theorem writesDouble_numberText {x : Float} (hx : x.isFinite) : WritesDouble (numberText x) x := by
  have hsign : x.toBits.toNat / 2 ^ 63 = 1 ↔ 2 ^ 63 ≤ x.toBits.toNat := by
    have hlt := x.toBits.toNat_lt
    omega
  obtain ⟨q, hwrites, hnear⟩ : ∃ q,
      WritesMagnitude (if (Decimal.Binary.ofFloat x).mantissa = 0 then ['0', '.', '0']
        else (Decimal.Binary.ofFloat x).shortest.toText numberStyle) q ∧
      Double.IsNearest q x := by
    split
    · rename_i hzero
      have hwhole : IsWhole ['0'] := by decide
      have hvalue : (decimalValue (['0'] ++ ['0']) : ℚ) = 0 := Nat.cast_zero
      refine ⟨0, .of_places hwhole hwhole.1 .none ?_, Double.isNearest_of_surrounds hx
        (surrounds_zero hzero)⟩
      rw [hvalue, zero_mul]
    · rename_i hne
      have hpos := Nat.pos_of_ne_zero hne
      have hread := readsBack_shortest (isCanonical_ofFloat hx) hpos
      exact ⟨_, Decimal.writesMagnitude_toText numberStyle (pos_of_readsBack hpos hread),
        Double.isNearest_of_surrounds hx (surrounds_of_readsBack hpos hread)⟩
  rw [numberText, Decimal.ofFloat?, if_pos hx, Option.getD_some]
  simp only [Nat.pow_eq, hsign]
  split
  · exact .minus ‹_› hwrites hnear
  · exact .plus (Nat.lt_of_not_le ‹_›) hwrites hnear

/-! ### Values -/

/-- A text that says a JSON value. A number that is not finite has no text of its own. -/
inductive Writes : Text → Json → Prop
  | null : Writes "null".toList .null
  | true : Writes "true".toList (.bool true)
  | false : Writes "false".toList (.bool false)
  | natural {s : Text} (h : IsWhole s) : Writes s (.integer (decimalValue s))
  | negative {s : Text} (h : IsWhole s) : Writes ('-' :: s) (.integer (-decimalValue s))
  | number {s : Text} {x : Float} (h : WritesDouble s x) : Writes s (.number x)
  | notFinite {x : Float} (h : ¬x.isFinite) : Writes "null".toList (.number x)
  | string {s t : Text} (h : Spells s t) : Writes ('"' :: (s ++ ['"'])) (.string t)
  | array {s : Text} {texts : List Text} {items : List Json} (h : Enclosed Eq s texts)
      (hv : List.Forall₂ Writes texts items) : Writes ('[' :: (s ++ [']'])) (.array items)
  | object {s : Text} {texts : List (Text × Text)} {fields : List (Text × Json)}
      (h : Enclosed WritesField s texts)
      (hk : List.Forall₂ Spells (texts.map Prod.fst) (fields.map Prod.fst))
      (hv : List.Forall₂ Writes (texts.map Prod.snd) (fields.map Prod.snd)) :
      Writes ('\x7b' :: (s ++ ['\x7d'])) (.object fields)

theorem writes_integer (n : ℤ) : Writes (ofInt n) (.integer n) := by
  cases n with
  | ofNat n =>
      have h := Writes.natural (isWhole_ofNat n)
      rwa [decimalValue_ofNat] at h
  | negSucc n =>
      have h := Writes.negative (isWhole_ofNat (n + 1))
      rwa [decimalValue_ofNat] at h

theorem enclosed_itemsText (items : List Json) :
    Enclosed Eq (toText.itemsText items) (items.map toText) := by
  cases items with
  | nil => exact .nothing isSpacing_nil
  | cons item items =>
      refine .of_separated ?_
      induction items generalizing item with
      | nil => exact .last rfl
      | cons next items ih =>
          have hmore := Separated.more (rfl : item.toText = item.toText)
            (.mk isSpacing_nil isSpacing_nil) (ih next)
          simpa [toText.itemsText] using hmore

mutual

/-- The text of a value says it. -/
theorem writes_toText : ∀ j : Json, Writes j.toText j
  | .null => .null
  | .bool true => .true
  | .bool false => .false
  | .integer n => by
      rw [toText]
      exact writes_integer n
  | .number x => by
      rw [toText]
      by_cases hx : x.isFinite
      · exact .number (writesDouble_numberText hx)
      · rw [numberText, Decimal.ofFloat?, if_neg hx, Option.getD_none]
        exact .notFinite hx
  | .string s => by
      rw [toText, quote]
      exact .string (spells_flatMap_escape s)
  | .array items => by
      rw [toText]
      refine .array (enclosed_itemsText items) ?_
      rw [List.forall₂_map_left_iff, List.forall₂_same]
      exact writes_of_mem_items items
  | .object fields => by
      rw [toText]
      refine .object (enclosed_fieldsText fields) ?_ ?_
      · simp only [List.map_map, List.forall₂_map_left_iff, List.forall₂_map_right_iff,
          List.forall₂_same]
        exact fun f _ => spells_flatMap_escape f.1
      · simp only [List.map_map, List.forall₂_map_left_iff, List.forall₂_map_right_iff,
          List.forall₂_same]
        exact writes_of_mem_fields fields

theorem writes_of_mem_items : ∀ items : List Json, ∀ v ∈ items, Writes v.toText v
  | [] => fun _ h => absurd h List.not_mem_nil
  | v :: vs => List.forall_mem_cons.mpr ⟨writes_toText v, writes_of_mem_items vs⟩

theorem writes_of_mem_fields : ∀ fields : List (Text × Json), ∀ f ∈ fields, Writes f.2.toText f.2
  | [] => fun _ h => absurd h List.not_mem_nil
  | (_, v) :: fs => List.forall_mem_cons.mpr ⟨writes_toText v, writes_of_mem_fields fs⟩

end

theorem forall_mem_of_forall₂ {α β : Type} {R : α → β → Prop} {P : α → Prop} {as : List α}
    {bs : List β} (h : List.Forall₂ R as bs) (hP : ∀ a b, R a b → P a) : ∀ a ∈ as, P a :=
  ((List.forall₂_and_left as bs).mp (h.imp fun a b hab => ⟨hP a b hab, hab⟩)).1

mutual

/-- What says a value is a value for the reader of JSON, too. -/
theorem isValue_of_writes : ∀ (j : Json) {s : Text}, Writes s j → IsValue s
  | .null, _, .null => .word (by decide)
  | .bool true, _, .true => .word (by decide)
  | .bool false, _, .false => .word (by decide)
  | .integer _, _, .natural h => .magnitude h.isMagnitude
  | .integer _, _, .negative h => .minus h.isMagnitude
  | .number _, _, .number (.plus _ h _) => .magnitude h.isMagnitude
  | .number _, _, .number (.minus _ h _) => .minus h.isMagnitude
  | .number _, _, .notFinite _ => .word (by decide)
  | .string _, _, .string h => .string h.isContent
  | .array items, _, .array h hv => .array h (isValue_of_mem_items items hv)
  | .object fields, _, .object h hk hv => .object h
      (List.forall_mem_map.mp (forall_mem_of_forall₂ hk fun _ _ h => h.isContent))
      (List.forall_mem_map.mp (isValue_of_mem_fields fields hv))

theorem isValue_of_mem_items : ∀ (items : List Json) {texts : List Text},
    List.Forall₂ Writes texts items → ∀ s ∈ texts, IsValue s
  | [], _, .nil => fun _ h => absurd h List.not_mem_nil
  | v :: vs, _, .cons h hs =>
      List.forall_mem_cons.mpr ⟨isValue_of_writes v h, isValue_of_mem_items vs hs⟩

theorem isValue_of_mem_fields : ∀ (fields : List (Text × Json)) {texts : List Text},
    List.Forall₂ Writes texts (fields.map Prod.snd) → ∀ s ∈ texts, IsValue s
  | [], _, .nil => fun _ h => absurd h List.not_mem_nil
  | (_, v) :: fs, _, .cons h hs =>
      List.forall_mem_cons.mpr ⟨isValue_of_writes v h, isValue_of_mem_fields fs hs⟩

end

/-- The reader of JSON takes the text of a value as a whole. -/
theorem skipValue_toText (j : Json) {r : Source} (hr : Ends r) :
    skipValue (j.toText.map some ++ r) = .ok r :=
  skipValue_append isSpacing_nil (isValue_of_writes j (writes_toText j)) hr

end Json

end Backtrack
