import Backtrack.Json.Basic
import Backtrack.Json.Skip
import Backtrack.Proofs.Integers
import Backtrack.Proofs.Language

/-!
Which texts are JSON, described without reading. Objects and arrays hold parts with commas between
them, and white space may stand between any two tokens. Every token is read up to its end, whatever
stands behind it; if it matters, the reader finds the text that it spells or the number that it
writes. What is written is JSON of this kind, with nothing around the tokens.
-/

namespace Backtrack.Json

open Text

/-! ### The grammar -/

def IsSpacing (s : Text) : Prop := ∀ c ∈ s, c ∈ [' ', '\n', '\t', '\r']

def AreDigits (s : Text) : Prop := s ≠ [] ∧ ∀ c ∈ s, c.isDigit

/-- Digits without a zero in front of others. -/
def IsWhole (s : Text) : Prop := AreDigits s ∧ (s.head? = some '0' → s = ['0'])

inductive IsFraction : Text → Prop
  | none : IsFraction []
  | point {digits : Text} (h : AreDigits digits) : IsFraction ('.' :: digits)

inductive IsExponent : Text → Prop
  | none : IsExponent []
  | letter {c : Char} {sign digits : Text} (hc : c ∈ ['e', 'E'])
      (hsign : sign ∈ [[], ['+'], ['-']]) (h : AreDigits digits) :
      IsExponent (c :: (sign ++ digits))

inductive IsMagnitude : Text → Prop
  | mk {whole fraction exponent : Text} (hw : IsWhole whole) (hf : IsFraction fraction)
      (he : IsExponent exponent) : IsMagnitude (whole ++ (fraction ++ exponent))

def IsHexDigit (c : Char) (n : ℕ) : Prop :=
  n < 16 ∧ (c = Nat.digitChar n ∨ c = (Nat.digitChar n).toUpper)

/-- Four hexadecimal digits, the first one with the highest place. -/
inductive WritesUnit : Text → ℕ → Prop
  | mk {a b c d : Char} {i j k l : ℕ} (ha : IsHexDigit a i) (hb : IsHexDigit b j)
      (hc : IsHexDigit c k) (hd : IsHexDigit d l) :
      WritesUnit [a, b, c, d] (((i * 16 + j) * 16 + k) * 16 + l)

def IsPlain (c : Char) : Prop := 0x20 ≤ c.toNat ∧ c ≠ '"' ∧ c ≠ '\\'

def escapes : List (Char × Char) :=
  [('"', '"'), ('\\', '\\'), ('/', '/'), ('b', '\x08'), ('f', '\x0c'), ('n', '\n'), ('r', '\r'),
    ('t', '\t')]

inductive IsContent : Text → Prop
  | nil : IsContent []
  | plain {c : Char} {s : Text} (hc : IsPlain c) (hs : IsContent s) : IsContent (c :: s)
  | escape {e c : Char} {s : Text} (he : (e, c) ∈ escapes) (hs : IsContent s) :
      IsContent ('\\' :: e :: s)
  | unit {u s : Text} {n : ℕ} (hu : WritesUnit u n) (hs : IsContent s) :
      IsContent ('\\' :: 'u' :: (u ++ s))

/-- What stands between the quotes of a string spells a text. Surrogates do so only in pairs. -/
inductive Spells : Text → Text → Prop
  | nil : Spells [] []
  | plain {c : Char} {s t : Text} (hc : IsPlain c) (hs : Spells s t) : Spells (c :: s) (c :: t)
  | escape {e c : Char} {s t : Text} (he : (e, c) ∈ escapes) (hs : Spells s t) :
      Spells ('\\' :: e :: s) (c :: t)
  | unit {u s t : Text} {n : ℕ} (hu : WritesUnit u n) (hn : n < 0xd800 ∨ 0xe000 ≤ n)
      (hs : Spells s t) : Spells ('\\' :: 'u' :: (u ++ s)) (.ofNat n :: t)
  | pair {u v s t : Text} {high low : ℕ} (hu : WritesUnit u (0xd800 + high)) (hhigh : high < 0x400)
      (hv : WritesUnit v (0xdc00 + low)) (hlow : low < 0x400) (hs : Spells s t) :
      Spells ('\\' :: 'u' :: (u ++ '\\' :: 'u' :: (v ++ s)))
        (.ofNat (0x10000 + high * 0x400 + low) :: t)

inductive IsComma : Text → Prop
  | mk {a b : Text} (ha : IsSpacing a) (hb : IsSpacing b) : IsComma (a ++ ',' :: b)

/-- What stands between two brackets: parts with commas between them, and white space around them,
or nothing but white space. -/
inductive Enclosed {α : Type} (Part : Text → α → Prop) : Text → List α → Prop
  | nothing {a : Text} (ha : IsSpacing a) : Enclosed Part a []
  | parts {a s b : Text} {xs : List α} (ha : IsSpacing a) (h : Separated Part IsComma s xs)
      (hb : IsSpacing b) : Enclosed Part (a ++ (s ++ b)) xs

/-- A field as it is written. It is given by what stands between the quotes of its key, and by the
text of its value. -/
inductive WritesField : Text → Text × Text → Prop
  | mk {k v a b : Text} (ha : IsSpacing a) (hb : IsSpacing b) :
      WritesField ('"' :: (k ++ '"' :: (a ++ ':' :: (b ++ v)))) (k, v)

/-- A JSON value, without white space in front of it or behind it. -/
inductive IsValue : Text → Prop
  | word {w : Text} (h : w ∈ ["null".toList, "true".toList, "false".toList]) : IsValue w
  | magnitude {s : Text} (h : IsMagnitude s) : IsValue s
  | minus {s : Text} (h : IsMagnitude s) : IsValue ('-' :: s)
  | string {s : Text} (h : IsContent s) : IsValue ('"' :: (s ++ ['"']))
  | array {s : Text} {items : List Text} (h : Enclosed Eq s items) (hv : ∀ v ∈ items, IsValue v) :
      IsValue ('[' :: (s ++ [']']))
  | object {s : Text} {fields : List (Text × Text)} (h : Enclosed WritesField s fields)
      (hk : ∀ f ∈ fields, IsContent f.1) (hv : ∀ f ∈ fields, IsValue f.2) :
      IsValue ('\x7b' :: (s ++ ['\x7d']))

/-- A text that is an object with these fields, with white space around it. -/
inductive WritesObject : Text → List (Text × Text) → Prop
  | mk {a s b : Text} {fields : List (Text × Text)} (ha : IsSpacing a)
      (h : Enclosed WritesField s fields) (hk : ∀ f ∈ fields, IsContent f.1)
      (hv : ∀ f ∈ fields, IsValue f.2) (hb : IsSpacing b) :
      WritesObject (a ++ '\x7b' :: (s ++ '\x7d' :: b)) fields

instance (s : Text) : Decidable (IsSpacing s) :=
  decidable_of_iff (s.all (· ∈ [' ', '\n', '\t', '\r']))
    (by simp only [List.all_eq_true, decide_eq_true_eq]; rfl)

instance (s : Text) : Decidable (AreDigits s) :=
  decidable_of_iff (s ≠ [] ∧ s.all Char.isDigit) (by rw [List.all_eq_true]; rfl)

instance (s : Text) : Decidable (IsWhole s) := inferInstanceAs (Decidable (_ ∧ (_ → _)))

instance (c : Char) : Decidable (IsPlain c) := inferInstanceAs (Decidable (_ ∧ _))

variable {s t a : Text} {r : Source} {x : Option Char}

theorem IsWhole.isMagnitude (h : IsWhole s) : IsMagnitude s := by
  simpa using IsMagnitude.mk h .none .none

/-! ### White space and words -/

theorem IsSpacing.isSpace (h : IsSpacing a) {c : Char} (hc : c ∈ a) : isSpace (some c) := by
  have hmem := h c hc
  simp only [List.mem_cons, List.not_mem_nil, or_false] at hmem
  rcases hmem with rfl | rfl | rfl | rfl <;> rfl

theorem isSpacing_nil : IsSpacing [] := fun _ h => absurd h List.not_mem_nil

theorem skipSpace_append (h : IsSpacing a) (r : Source) :
    skipSpace (a.map some ++ r) = skipSpace r := by
  refine List.dropWhile_append_of_pos fun x hx => ?_
  obtain ⟨c, hc, rfl⟩ := List.mem_map.mp hx
  exact h.isSpace hc

theorem skipSpace_cons (h : isSpace x = false) (r : Source) : skipSpace (x :: r) = x :: r :=
  List.dropWhile_cons_of_neg (by simp [h])

theorem readWord_append (w : Text) (r : Source) : readWord w (w.map some ++ r) = .ok r := by
  induction w with
  | nil => rfl
  | cons c w ih => rw [List.map_cons, List.cons_append, readWord, if_pos rfl, ih]

/-! ### Strings -/

theorem hexValue?_eq {c : Char} {n : ℕ} (h : IsHexDigit c n) : hexValue? (some c) = some n := by
  have hall : ∀ n < 16, hexValue? (some (Nat.digitChar n)) = some n ∧
      hexValue? (some (Nat.digitChar n).toUpper) = some n := by decide
  obtain ⟨hn, rfl | rfl⟩ := h
  · exact (hall n hn).1
  · exact (hall n hn).2

theorem readFourHex_append {u : Text} {n : ℕ} (h : WritesUnit u n) (r : Source) :
    readFourHex (u.map some ++ r) = .ok (n, r) := by
  obtain ⟨ha, hb, hc, hd⟩ := h
  rename_i a b c d _ _ _ _
  -- Every character takes a byte or more, so four of them are never too few.
  have hsize : ¬symbolSize (some a) + (symbolSize (some b) + (symbolSize (some c) +
      (symbolSize (some d) + 0))) < 4 := by
    have := a.utf8Size_pos
    have := b.utf8Size_pos
    have := c.utf8Size_pos
    have := d.utf8Size_pos
    simp only [symbolSize, Option.map_some, Option.getD_some]
    omega
  change (if symbolSize (some a) + (symbolSize (some b) + (symbolSize (some c) +
      (symbolSize (some d) + 0))) < 4 then _ else _) = _
  rw [if_neg hsize]
  simp [hexValue?_eq ha, hexValue?_eq hb, hexValue?_eq hc, hexValue?_eq hd]

theorem simpleEscape?_eq {e c : Char} (h : (e, c) ∈ escapes) :
    simpleEscape? (some e) = some c ∧ e ≠ 'u' := by
  have hall : ∀ p ∈ escapes, simpleEscape? (some p.1) = some p.2 ∧ p.1 ≠ 'u' := by decide
  exact hall _ h

theorem IsPlain.isControl {c : Char} (h : IsPlain c) : isControl (some c) = false :=
  decide_eq_false (Nat.not_lt_of_le h.1)

theorem skipEscape_simple {e c : Char} (h : (e, c) ∈ escapes) (r : Source) :
    skipEscape (some e :: r) = .ok r := by
  obtain ⟨hc, hu⟩ := simpleEscape?_eq h
  rw [skipEscape, hc]
  · rfl
  · exact fun heq => hu (Option.some.inj heq)

theorem skipString_plain {c : Char} (h : IsPlain c) (r : Source) :
    skipString (some c :: r) = skipString r := by
  rw [skipString, h.isControl]
  · rfl
  · exact fun heq => h.2.1 (Option.some.inj heq)
  · exact fun heq => h.2.2 (Option.some.inj heq)

theorem skipString_escape {r r' : Source} (h : skipEscape r = .ok r') :
    skipString (some '\\' :: r) = skipString r' := by
  rw [skipString]
  split
  · rename_i heq
    rw [h] at heq
    cases heq
  · rename_i heq
    rw [h] at heq
    cases heq
    rfl

theorem skipString_append (h : IsContent s) (r : Source) :
    skipString (s.map some ++ some '"' :: r) = .ok r := by
  induction h with
  | nil => rw [List.map_nil, List.nil_append, skipString]
  | plain hc _ ih => exact (skipString_plain hc _).trans ih
  | escape he _ ih => exact (skipString_escape (skipEscape_simple he _)).trans ih
  | @unit u s n hu _ ih =>
      rw [List.map_cons, List.map_cons, List.map_append, List.cons_append, List.cons_append,
        List.append_assoc]
      refine (skipString_escape ?_).trans ih
      rw [skipEscape, readFourHex_append hu]
      rfl

theorem readEscape_simple {e c : Char} (h : (e, c) ∈ escapes) (r : Source) :
    readEscape (some e :: r) = .ok (c, r) := by
  obtain ⟨hc, hu⟩ := simpleEscape?_eq h
  rw [readEscape, hc]
  exact fun heq => hu (Option.some.inj heq)

theorem readEscape_unit {u : Text} {n : ℕ} (h : WritesUnit u n) (hn : n < 0xd800 ∨ 0xe000 ≤ n)
    (r : Source) : readEscape (some 'u' :: (u.map some ++ r)) = .ok (.ofNat n, r) := by
  have hlow : ¬(0xdc00 ≤ n ∧ n < 0xe000) := by omega
  have hhigh : ¬(0xd800 ≤ n ∧ n < 0xdc00) := by omega
  simp [readEscape, readFourHex_append h, hlow, hhigh]

theorem readEscape_pair {u v : Text} {high low : ℕ} (hu : WritesUnit u (0xd800 + high))
    (hhigh : high < 0x400) (hv : WritesUnit v (0xdc00 + low)) (hlow : low < 0x400) (r : Source) :
    readEscape (some 'u' :: (u.map some ++ some '\\' :: some 'u' :: (v.map some ++ r))) =
      .ok (.ofNat (0x10000 + high * 0x400 + low), r) := by
  have hnot : ¬(0xdc00 ≤ 0xd800 + high ∧ 0xd800 + high < 0xe000) := by omega
  have hfirst : 0xd800 ≤ 0xd800 + high ∧ 0xd800 + high < 0xdc00 := by omega
  have hsecond : 0xdc00 ≤ 0xdc00 + low ∧ 0xdc00 + low < 0xe000 := by omega
  have hcode : (0xd800 + high - 0xd800) * 0x400 + (0xdc00 + low - 0xdc00) + 0x10000 =
      0x10000 + high * 0x400 + low := by omega
  simp only [readEscape, readFourHex_append hu, readLowSurrogate, readFourHex_append hv,
    Bool.and_eq_true, decide_eq_true_eq, if_neg hnot, if_pos hfirst, if_pos hsecond, hcode,
    and_self, if_true]

theorem readContent_plain {c : Char} {cs : Source} {r r' : Source} (h : IsPlain c)
    (hr : readContent r = .ok (cs, r')) : readContent (some c :: r) = .ok (some c :: cs, r') := by
  rw [readContent, h.isControl, hr]
  · rfl
  · exact fun heq => h.2.1 (Option.some.inj heq)
  · exact fun heq => h.2.2 (Option.some.inj heq)

theorem readContent_escape {c : Char} {cs : Source} {r r' r'' : Source}
    (h : readEscape r = .ok (c, r')) (hr : readContent r' = .ok (cs, r'')) :
    readContent (some '\\' :: r) = .ok (some c :: cs, r'') := by
  rw [readContent]
  split
  · rename_i heq
    rw [h] at heq
    cases heq
  · rename_i heq
    rw [h] at heq
    cases heq
    rw [hr]
    rfl

theorem readContent_append {name : Text} (h : Spells s name) (r : Source) :
    readContent (s.map some ++ some '"' :: r) = .ok (name.map some, r) := by
  induction h with
  | nil => rw [List.map_nil, List.nil_append, readContent]
  | plain hc _ ih => exact readContent_plain hc ih
  | escape he _ ih => exact readContent_escape (readEscape_simple he _) ih
  | unit hu hn _ ih =>
      rw [List.map_cons, List.map_cons, List.map_append, List.cons_append, List.cons_append,
        List.append_assoc]
      exact readContent_escape (readEscape_unit hu hn _) ih
  | pair hu hhigh hv hlow _ ih =>
      simp only [List.map_cons, List.map_append, List.cons_append, List.append_assoc]
      exact readContent_escape (readEscape_pair hu hhigh hv hlow _) ih

theorem mapM_id_map_some (t : Text) : (t.map some).mapM id = some t := by
  induction t with
  | nil => rfl
  | cons c t ih =>
      rw [List.map_cons, List.mapM_cons, ih]
      rfl

theorem readString_append {name : Text} (h : Spells s name) (r : Source) :
    readString (s.map some ++ some '"' :: r) = .ok (name, r) := by
  rw [readString, readContent_append h]
  simp only [mapM_id_map_some]

theorem Spells.unique {name name' : Text} (h : Spells s name) (h' : Spells s name') :
    name = name' := by
  have hread := (readString_append h []).symm.trans (readString_append h' [])
  exact congrArg Prod.fst (Except.ok.inj hread)

/-! ### Numbers -/

/-- Nothing that would make a number longer follows. -/
def Ends (r : Source) : Prop :=
  ∀ x ∈ r.head?, isDigit x = false ∧ x ≠ some '.' ∧ x ≠ some 'e' ∧ x ≠ some 'E'

theorem ends_nil : Ends [] := fun _ h => absurd h (Option.not_mem_none _)

theorem Ends.not_digit (h : Ends r) : ¬r.head?.any isDigit := by
  cases hx : r.head? with
  | none => exact Bool.false_ne_true
  | some x => simp [(h x hx).1]

theorem leadingDigits_append {digits : Text} (h : ∀ c ∈ digits, c.isDigit)
    (hr : ¬r.head?.any isDigit) : leadingDigits (digits.map some ++ r) = digits := by
  have hdigits : ∀ x ∈ digits.map some, isDigit x := List.forall_mem_map.mpr h
  have hnone : r.takeWhile isDigit = [] := by
    cases r with
    | nil => rfl
    | cons x r => exact List.takeWhile_cons_of_neg hr
  rw [leadingDigits, List.takeWhile_append_of_pos hdigits, hnone, List.append_nil,
    List.filterMap_map]
  exact List.filterMap_some

theorem skipDigits_append {digits : Text} (h : ∀ c ∈ digits, c.isDigit)
    (hr : ¬r.head?.any isDigit) : skipDigits (digits.map some ++ r) = r := by
  have hdigits : ∀ x ∈ digits.map some, isDigit x := List.forall_mem_map.mpr h
  rw [skipDigits, List.dropWhile_append_of_pos hdigits]
  cases r with
  | nil => rfl
  | cons x r => exact List.dropWhile_cons_of_neg hr

theorem skipDigits1_append {digits : Text} (h : AreDigits digits) (hr : ¬r.head?.any isDigit) :
    skipDigits1 (digits.map some ++ r) = .ok r := by
  rw [skipDigits1, leadingDigits_append h.2 hr, skipDigits_append h.2 hr,
    if_neg (by simp [h.1])]

theorem unsigned_append {sign digits : Text} (hsign : sign ∈ [[], ['+'], ['-']])
    (h : AreDigits digits) (r : Source) :
    skipExponent.unsigned ((sign ++ digits).map some ++ r) = digits.map some ++ r := by
  simp only [List.mem_cons, List.not_mem_nil, or_false] at hsign
  rcases hsign with rfl | rfl | rfl
  · obtain ⟨d, digits, rfl⟩ := List.exists_cons_of_ne_nil h.1
    have hd := h.2 d List.mem_cons_self
    have hminus : d ≠ '-' := fun heq => absurd (heq ▸ hd) (by decide)
    have hplus : d ≠ '+' := fun heq => absurd (heq ▸ hd) (by decide)
    simp [skipExponent.unsigned, hminus, hplus]
  · rfl
  · rfl

theorem skipExponent_append (h : IsExponent s) (hr : Ends r) :
    skipExponent (s.map some ++ r) = .ok r := by
  cases h with
  | none =>
      rw [List.map_nil, List.nil_append, skipExponent]
      · rintro s rfl
        exact (hr _ rfl).2.2.1 rfl
      · rintro s rfl
        exact (hr _ rfl).2.2.2 rfl
  | @letter c sign digits hc hsign hdigits =>
      have hletter : ∀ s, skipExponent (some c :: s) = skipDigits1 (skipExponent.unsigned s) := by
        simp only [List.mem_cons, List.not_mem_nil, or_false] at hc
        rcases hc with rfl | rfl <;> exact fun s => rfl
      rw [List.map_cons, List.cons_append, hletter, unsigned_append hsign hdigits,
        skipDigits1_append hdigits hr.not_digit]

theorem IsExponent.not_digit (h : IsExponent s) (hr : Ends r) :
    ¬(s.map some ++ r).head?.any isDigit := by
  cases h with
  | none => exact hr.not_digit
  | letter hc hsign hdigits =>
      simp only [List.mem_cons, List.not_mem_nil, or_false] at hc
      rcases hc with rfl | rfl <;> exact Bool.false_ne_true

theorem IsExponent.head_ne_point (h : IsExponent s) (hr : Ends r) :
    (s.map some ++ r).head? ≠ some (some '.') := by
  cases h with
  | none => exact fun heq => (hr _ heq).2.1 rfl
  | letter hc hsign hdigits =>
      simp only [List.mem_cons, List.not_mem_nil, or_false] at hc
      rcases hc with rfl | rfl <;> rintro ⟨⟩

theorem skipNumber_point {r' : Source} (h : IsWhole s) (hr : skipDigits1 r = .ok r') :
    skipNumber (s.map some ++ some '.' :: r) = skipExponent r' := by
  have hpoint : ¬(some '.' :: r : Source).head?.any isDigit := Bool.false_ne_true
  rw [skipNumber, leadingDigits_append h.1.2 hpoint, skipDigits_append h.1.2 hpoint]
  split
  · exact absurd rfl h.1.1
  · cases h.2 rfl
  · simp only [hr]

theorem skipNumber_no_point (h : IsWhole s) (hr : ¬r.head?.any isDigit)
    (hpoint : r.head? ≠ some (some '.')) : skipNumber (s.map some ++ r) = skipExponent r := by
  rw [skipNumber, leadingDigits_append h.1.2 hr, skipDigits_append h.1.2 hr]
  split
  · exact absurd rfl h.1.1
  · cases h.2 rfl
  · split
    · exact absurd rfl hpoint
    · rfl

theorem skipNumber_append (h : IsMagnitude s) (hr : Ends r) :
    skipNumber (s.map some ++ r) = .ok r := by
  obtain ⟨hw, hf, he⟩ := h
  simp only [List.map_append, List.append_assoc]
  cases hf with
  | none =>
      rw [List.map_nil, List.nil_append,
        skipNumber_no_point hw (he.not_digit hr) (he.head_ne_point hr), skipExponent_append he hr]
  | point hdigits =>
      rw [List.map_cons, List.cons_append,
        skipNumber_point hw (skipDigits1_append hdigits (he.not_digit hr)),
        skipExponent_append he hr]

/-! ### Counts -/

theorem le_foldl_digits (n : ℕ) (digits : Text) :
    n ≤ digits.foldl (fun n c => 10 * n + (c.toNat - '0'.toNat)) n := by
  induction digits generalizing n with
  | nil => exact Nat.le_refl n
  | cons c digits ih =>
      have hle : n ≤ 10 * n + (c.toNat - '0'.toNat) := by omega
      exact hle.trans (ih _)

/-- As long as 64 bits hold the number, all digits are appended. -/
theorem fill_eq {n : ℕ} {digits : Text}
    (h : digits.foldl (fun n c => 10 * n + (c.toNat - '0'.toNat)) n < UInt64.size) :
    fill n digits =
      (digits.foldl (fun n c => 10 * n + (c.toNat - '0'.toNat)) n, digits.length) := by
  induction digits generalizing n with
  | nil => rfl
  | cons d digits ih =>
      have hfits := Nat.lt_of_le_of_lt (le_foldl_digits _ digits) h
      rw [fill, if_pos hfits, ih h]
      rfl

theorem readNumber_append (h : IsWhole s) (hfits : decimalValue s < UInt64.size) (hr : Ends r) :
    readNumber (s.map some ++ r) = .ok (some (UInt64.ofNat (decimalValue s)), r) := by
  rw [← digitsValue_eq] at hfits ⊢
  rw [readNumber, leadingDigits_append h.1.2 hr.not_digit, skipDigits_append h.1.2 hr.not_digit]
  split
  · exact absurd rfl h.1.1
  · cases h.2 rfl
  · have hdigits : (s.length : ℤ) - s.length = 0 := Int.sub_self _
    simp only [fill_eq hfits, hdigits]
    split
    · exact absurd rfl (hr _ rfl).2.1
    · exact absurd rfl (hr _ rfl).2.2.1
    · exact absurd rfl (hr _ rfl).2.2.2
    · rfl

/-! ### Around a value -/

theorem ends_of_not_mem {c : Char} (h : c ∉ ['.', 'e', 'E']) (hdigit : c.isDigit = false) :
    Ends (some c :: r) := by
  simp only [List.mem_cons, List.not_mem_nil, or_false, not_or] at h
  rintro _ ⟨⟩
  simpa using ⟨hdigit, h⟩

theorem ends_append (ha : IsSpacing a) (hr : Ends r) : Ends (a.map some ++ r) := by
  cases a with
  | nil => exact hr
  | cons c a =>
      have hc := ha c List.mem_cons_self
      simp only [List.mem_cons, List.not_mem_nil, or_false] at hc
      rcases hc with rfl | rfl | rfl | rfl <;> exact ends_of_not_mem (by decide) rfl

theorem ends_comma (r : Source) : Ends (some ',' :: r) := ends_of_not_mem (by decide) rfl

theorem Bracket.ends_closing (b : Bracket) (r : Source) : Ends (b.closing :: r) := by
  cases b <;> exact ends_of_not_mem (by decide) rfl

theorem Bracket.isSpace_closing (b : Bracket) : isSpace b.closing = false := by
  cases b <;> rfl

theorem exists_head_of_separated {α : Type} {Part : Text → α → Prop} {xs : List α}
    {P : Char → Prop} (h : Separated Part IsComma s xs)
    (hparts : ∀ p, ∀ x ∈ xs, Part p x → ∃ c t, p = c :: t ∧ P c) : ∃ c t, s = c :: t ∧ P c := by
  cases h with
  | last h => exact hparts _ _ List.mem_cons_self h
  | more h =>
      obtain ⟨c, t, rfl, hc⟩ := hparts _ _ List.mem_cons_self h
      exact ⟨c, _, rfl, hc⟩

/-! ### What is written -/

theorem Spells.isContent {name : Text} (h : Spells s name) : IsContent s := by
  induction h with
  | nil => exact .nil
  | plain hc _ ih => exact .plain hc ih
  | escape he _ ih => exact .escape he ih
  | unit hu _ _ ih => exact .unit hu ih
  | pair hu _ hv _ _ ih => exact .unit hu (.unit hv ih)

theorem isHexDigit_digitChar {n : ℕ} (h : n < 16) : IsHexDigit (Nat.digitChar n) n :=
  ⟨h, .inl rfl⟩

theorem Spells.escape_append {name : Text} (c : Char) (h : Spells s name) :
    Spells (Json.escape c ++ s) (c :: name) := by
  unfold Json.escape
  split
  -- Other characters stand for themselves, except for the control characters.
  case h_8 _ hquote hbackslash _ _ _ _ _ =>
    split
    · rename_i hlt
      have hunit : WritesUnit ['0', '0', Nat.digitChar (c.toNat / 16), Nat.digitChar (c.toNat % 16)]
          (((0 * 16 + 0) * 16 + c.toNat / 16) * 16 + c.toNat % 16) :=
        .mk (isHexDigit_digitChar (by decide)) (isHexDigit_digitChar (by decide))
          (isHexDigit_digitChar (by omega)) (isHexDigit_digitChar (by omega))
      have hvalue : ((0 * 16 + 0) * 16 + c.toNat / 16) * 16 + c.toNat % 16 = c.toNat := by omega
      rw [hvalue] at hunit
      have hspells := Spells.unit hunit (.inl (by omega)) h
      rwa [Char.ofNat_toNat] at hspells
    · rename_i hle
      exact .plain ⟨Nat.le_of_not_lt hle, hquote, hbackslash⟩ h
  all_goals exact .escape (by decide) h

theorem spells_flatMap_escape (name : Text) : Spells (name.flatMap Json.escape) name := by
  induction name with
  | nil => exact .nil
  | cons c name ih => exact .escape_append c ih

/-- The digits of a number begin with a zero only if it is zero. -/
theorem head?_ofNat_ne_zero {n : ℕ} (h : 0 < n) : (Text.ofNat n).head? ≠ some '0' := by
  induction n using Nat.strong_induction_on with
  | _ n ih =>
      rw [Text.ofNat, Nat.toDigits_eq_if (by decide)]
      split
      · rename_i hlt
        have hall : ∀ n < 10, 0 < n → [Nat.digitChar n].head? ≠ some '0' := by decide
        exact hall n hlt h
      · rename_i hle
        rw [List.head?_append_of_ne_nil _ Nat.toDigits_ne_nil]
        exact ih (n / 10) (by omega) (by omega)

theorem isWhole_ofNat (n : ℕ) : IsWhole (Text.ofNat n) := by
  refine ⟨⟨Nat.toDigits_ne_nil, fun c => isDigit_of_mem_ofNat⟩, fun hhead => ?_⟩
  rcases Nat.eq_zero_or_pos n with rfl | hn
  · rfl
  · exact absurd hhead (head?_ofNat_ne_zero hn)

theorem writesField_quote (k : Text) (v : Json) :
    WritesField (quote k ++ ':' :: v.toText) (k.flatMap Json.escape, v.toText) := by
  have hwrites := WritesField.mk (k := k.flatMap Json.escape) (v := v.toText)
    isSpacing_nil isSpacing_nil
  simpa [quote] using hwrites

theorem separated_fieldsText (field : Text × Json) (fields : List (Text × Json)) :
    Separated WritesField IsComma (toText.fieldsText (field :: fields))
      ((field :: fields).map fun f => (f.1.flatMap Json.escape, f.2.toText)) := by
  induction fields generalizing field with
  | nil => exact .last (writesField_quote field.1 field.2)
  | cons next fields ih =>
      have hmore := Separated.more (writesField_quote field.1 field.2)
        (.mk isSpacing_nil isSpacing_nil) (ih next)
      simpa [toText.fieldsText] using hmore

theorem Enclosed.of_separated {α : Type} {Part : Text → α → Prop} {xs : List α}
    (h : Separated Part IsComma s xs) : Enclosed Part s xs := by
  have hparts := Enclosed.parts isSpacing_nil h isSpacing_nil
  rwa [List.nil_append, List.append_nil] at hparts

theorem enclosed_fieldsText (fields : List (Text × Json)) :
    Enclosed WritesField (toText.fieldsText fields)
      (fields.map fun f => (f.1.flatMap Json.escape, f.2.toText)) := by
  cases fields with
  | nil => exact .nothing isSpacing_nil
  | cons field fields => exact .of_separated (separated_fieldsText field fields)

/-- The text of an object is an object with the fields that it is made of. -/
theorem writesObject_toText {fields : List (Text × Json)} (h : ∀ f ∈ fields, IsValue f.2.toText) :
    WritesObject (Json.object fields).toText
      (fields.map fun f => (f.1.flatMap Json.escape, f.2.toText)) := by
  refine .mk isSpacing_nil (enclosed_fieldsText fields) ?_ ?_ isSpacing_nil
  · rw [List.forall_mem_map]
    exact fun f _ => (spells_flatMap_escape f.1).isContent
  · rw [List.forall_mem_map]
    exact h

end Backtrack.Json
