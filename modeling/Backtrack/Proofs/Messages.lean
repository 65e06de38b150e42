import Backtrack.Proofs.JsonTexts
import Backtrack.Run

/-!
What the messages of errors say. A point is given by its line and its column, and what is left over
stands between quotes, where characters that cannot be seen on their own are given by their code
points. The quotes hide nothing: no two texts are quoted in the same way.
-/

namespace Backtrack

namespace Text

/-- Decimal digits without a zero in front of others. -/
def WritesNat (s : Text) (n : ℕ) : Prop := Json.IsWhole s ∧ decimalValue s = n

inductive WritesHex : Text → ℕ → Prop
  | one {n : ℕ} (hn : n < 16) : WritesHex [Nat.digitChar n] n
  | more {s : Text} {m n : ℕ} (hs : WritesHex s m) (hn : n < 16) :
      WritesHex (s ++ [Nat.digitChar n]) (m * 16 + n)

def quotedEscapes : List (Char × Char) :=
  [('"', '"'), ('\\', '\\'), ('n', '\n'), ('r', '\r'), ('t', '\t'), ('0', '\x00')]

/-- What stands between the quotes for a text. Characters that cannot be seen on their own are
given by their code points. -/
inductive Quotes : Text → Text → Prop
  | nil : Quotes [] []
  | shown {c : Char} {s t : Text} (hquote : c ≠ '"') (hbackslash : c ≠ '\\')
      (hhidden : ¬isHidden c) (hcombining : ¬isCombining c) (hs : Quotes s t) :
      Quotes (c :: s) (c :: t)
  | escape {e c : Char} {s t : Text} (he : (e, c) ∈ quotedEscapes) (hs : Quotes s t) :
      Quotes ('\\' :: e :: s) (c :: t)
  | code {digits s t : Text} {c : Char} (hc : isHidden c ∨ isCombining c)
      (hd : WritesHex digits c.toNat) (hs : Quotes s t) :
      Quotes ('\\' :: 'u' :: '\x7b' :: (digits ++ '\x7d' :: s)) (c :: t)

variable {s t : Text}

theorem writesNat_ofNat (n : ℕ) : WritesNat (ofNat n) n :=
  ⟨Json.isWhole_ofNat n, decimalValue_ofNat n⟩

theorem writesHex_hexDigits (n : ℕ) : WritesHex (hexDigits n) n := by
  induction n using Nat.strong_induction_on with
  | _ n ih =>
      rw [hexDigits, Nat.toDigits_eq_if (by decide)]
      split
      · rename_i hlt
        exact .one hlt
      · rename_i hle
        have h := (ih (n / 16) (by omega)).more (Nat.mod_lt n (by decide : 0 < 16))
        rwa [Nat.div_add_mod'] at h

theorem quotes_escapeQuoted_append (c : Char) (h : Quotes s t) :
    Quotes (escapeQuoted c ++ s) (c :: t) := by
  unfold escapeQuoted
  split
  case h_7 hquote hbackslash _ _ _ _ =>
    split
    · rename_i hc
      have hcode := Quotes.code (Bool.or_eq_true_iff.mp hc) (writesHex_hexDigits c.toNat) h
      simpa using hcode
    · rename_i hc
      rw [Bool.or_eq_true, not_or] at hc
      exact .shown hquote hbackslash hc.1 hc.2 h
  all_goals exact .escape (by decide) h

theorem quotes_flatMap_escapeQuoted (t : Text) : Quotes (t.flatMap escapeQuoted) t := by
  induction t with
  | nil => exact .nil
  | cons c t ih => exact quotes_escapeQuoted_append c ih

def hexNumber (digits : Text) : ℕ :=
  digits.foldl (fun m c => m * 16 + (Json.hexValue? (some c)).getD 0) 0

theorem WritesHex.hexNumber_eq {m : ℕ} (h : WritesHex s m) : hexNumber s = m := by
  have hdigit : ∀ n < 16, (Json.hexValue? (some (Nat.digitChar n))).getD 0 = n := by decide
  induction h with
  | @one n hn =>
      change 0 * 16 + (Json.hexValue? (some (Nat.digitChar n))).getD 0 = n
      rw [hdigit n hn, Nat.zero_mul, Nat.zero_add]
  | @more s m n _ hn ih =>
      change (s ++ [Nat.digitChar n]).foldl _ 0 = _
      rw [List.foldl_append, ← hexNumber, ih, List.foldl_cons, List.foldl_nil, hdigit n hn]

theorem WritesHex.brace_not_mem {m : ℕ} (h : WritesHex s m) : '\x7d' ∉ s := by
  have hdigit : ∀ n < 16, '\x7d' ≠ Nat.digitChar n := by decide
  induction h with
  | one hn =>
      rw [List.mem_singleton]
      exact hdigit _ hn
  | more _ hn ih =>
      rw [List.mem_append, List.mem_singleton, not_or]
      exact ⟨ih, hdigit _ hn⟩

/-- Up to its brace, an escape is determined by what it stands in front of. -/
theorem code_inj {digits digits' s' : Text} {m m' : ℕ} (h : WritesHex digits m)
    (h' : WritesHex digits' m') (heq : digits ++ '\x7d' :: s = digits' ++ '\x7d' :: s') :
    m = m' ∧ s = s' := by
  have hsplit {d u : Text} (hd : '\x7d' ∉ d) :
      (d ++ '\x7d' :: u).takeWhile (· != '\x7d') = d := by
    rw [List.takeWhile_append_of_pos, List.takeWhile_cons_of_neg, List.append_nil]
    · decide
    · exact fun c hc => bne_iff_ne.mpr fun hbrace => hd (hbrace ▸ hc)
  have hdigits := congrArg (List.takeWhile (· != '\x7d')) heq
  rw [hsplit h.brace_not_mem, hsplit h'.brace_not_mem] at hdigits
  subst hdigits
  exact ⟨h.hexNumber_eq.symm.trans h'.hexNumber_eq,
    (List.cons.inj (List.append_cancel_left heq)).2⟩

theorem Quotes.unique {t' : Text} (h : Quotes s t) (h' : Quotes s t') : t = t' := by
  have hletter : ∀ p ∈ quotedEscapes, p.1 ≠ 'u' := by decide
  have hescapes : ∀ p ∈ quotedEscapes, ∀ p' ∈ quotedEscapes, p.1 = p'.1 → p.2 = p'.2 := by
    decide
  induction h generalizing t' with
  | nil =>
      cases h'
      rfl
  | shown _ hbackslash _ _ _ ih =>
      cases h' with
      | shown _ _ _ _ hs => rw [ih hs]
      | escape => exact absurd rfl hbackslash
      | code => exact absurd rfl hbackslash
  | @escape e c s t he _ ih =>
      cases h' with
      | shown _ hbackslash => exact absurd rfl hbackslash
      | @escape _ c' _ _ he' hs =>
          have hc : c = c' := hescapes _ he _ he' rfl
          rw [ih hs, hc]
      | code => exact absurd rfl (hletter _ he)
  | @code digits s t c hc hd _ ih =>
      generalize hu : digits ++ '\x7d' :: s = u at h'
      cases h' with
      | shown _ hbackslash => exact absurd rfl hbackslash
      | escape he => exact absurd rfl (hletter _ he)
      | @code digits' s' t' c' _ hd' hs =>
          obtain ⟨hcode, rfl⟩ := code_inj hd hd' hu
          rw [ih hs, Char.toNat_inj.mp hcode]

theorem quoted_injective : Function.Injective quoted := by
  intro t t' heq
  have hcontent : t.flatMap escapeQuoted = t'.flatMap escapeQuoted :=
    List.append_cancel_right (List.cons.inj heq).2
  exact (quotes_flatMap_escapeQuoted t).unique (hcontent ▸ quotes_flatMap_escapeQuoted t')

end Text

inductive Location.Says : Location → Text → Prop
  | mk {l : Location} {line column : Text} (hl : Text.WritesNat line l.line)
      (hc : Text.WritesNat column l.column) :
      Says l ("line ".toList ++ line ++ ", column ".toList ++ column)

theorem Location.says_toText (l : Location) : l.Says l.toText :=
  .mk (Text.writesNat_ofNat l.line) (Text.writesNat_ofNat l.column)

/-- What the message of an error says: where it is, and in quotes what is left over there. -/
inductive ParseError.Says : ParseError → Text → Prop
  | noParse {l : Location} {place : Text} (hl : l.Says place) :
      Says (.noParse l) ("No parse at ".toList ++ place)
  | incomplete {l : Location} {rest place s : Text} (hl : l.Says place)
      (hs : Text.Quotes s rest) :
      Says (.incomplete l rest)
        ("Incomplete parse at ".toList ++ place ++ ": unconsumed ".toList ++ '"' :: s ++ ['"'])
  | limitReached {limit : UInt64} {l : Location} {count place : Text}
      (hcount : Text.WritesNat count limit.toNat) (hl : l.Says place) :
      Says (.limitReached limit l)
        ("Gave up after ".toList ++ count ++ " alternatives at ".toList ++ place)

/-- The message of an error says what it is. -/
theorem ParseError.says_message (e : ParseError) : e.Says e.message := by
  cases e with
  | noParse l => exact .noParse l.says_toText
  | incomplete l rest =>
      have h := Says.incomplete l.says_toText (Text.quotes_flatMap_escapeQuoted rest)
      rwa [List.append_assoc] at h
  | limitReached limit l => exact .limitReached (Text.writesNat_ofNat limit.toNat) l.says_toText

example : (ParseError.noParse ⟨0, 1, 1⟩).message = "No parse at line 1, column 1".toList := by
  decide

end Backtrack
