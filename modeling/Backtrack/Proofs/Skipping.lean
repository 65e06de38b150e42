import Backtrack.Proofs.JsonTexts

/-!
Values that do not matter. Every JSON value is skipped, and what follows it is left as it was. Since
the brackets that are still open are kept in a list, this holds below any of them, so that a value
is skipped in the same way at every depth.
-/

namespace Backtrack.Json

open Text

variable {b : Bracket} {brackets : List Bracket} {a s v : Text} {r u : Source}

/-! ### One step -/

def Bracket.opening : Bracket → Char
  | array => '['
  | object => '\x7b'

def Bracket.first : Bracket → Expected
  | array => .firstItem
  | object => .firstKey

theorem skipFrom_value_eq (brackets : List Bracket) (u : Source) :
    skipFrom .value brackets u =
      match skipSpace u with
      | some '[' :: r => skipFrom .firstItem (.array :: brackets) r
      | some '\x7b' :: r => skipFrom .firstKey (.object :: brackets) r
      | r => (skipScalar r).bind (skipFrom .separator brackets) := by
  rw [skipFrom]
  split
  · rename_i heq
    simp only [heq]
  · rename_i heq
    simp only [heq]
  · split <;> rename_i heq <;> simp only [heq, Except.bind]

theorem skipFrom_first_eq (b : Bracket) (brackets : List Bracket) (u : Source) :
    skipFrom b.first (b :: brackets) u =
      match skipSpace u with
      | [] => .error .truncated
      | x :: r =>
        if x = b.closing then skipFrom .separator brackets r
        else skipFrom b.afterComma (b :: brackets) (x :: r) := by
  cases b <;> rw [Bracket.first, skipFrom] <;> split <;> rename_i heq <;> simp only [heq]
  all_goals grind [Bracket.closing, Bracket.afterComma]

theorem skipFrom_key_eq (brackets : List Bracket) (u : Source) :
    skipFrom .key brackets u = (skipKey (skipSpace u)).bind (skipFrom .value brackets) := by
  rw [skipFrom]
  split <;> rename_i heq <;> simp only [heq, Except.bind]

theorem skipFrom_separator_eq (b : Bracket) (brackets : List Bracket) (u : Source) :
    skipFrom .separator (b :: brackets) u =
      match skipSpace u with
      | [] => .error .truncated
      | x :: r =>
        if x = some ',' then skipFrom b.afterComma (b :: brackets) r
        else if x = b.closing then skipFrom .separator brackets r
        else .error .malformed := by
  rw [skipFrom]
  dsimp only
  split <;> rename_i heq <;> simp only [heq]

/-- White space in front of a value or a key is skipped. -/
theorem skipFrom_afterComma_append (ha : IsSpacing a) (b : Bracket) (brackets : List Bracket)
    (r : Source) :
    skipFrom b.afterComma brackets (a.map some ++ r) = skipFrom b.afterComma brackets r := by
  cases b with
  | array => rw [Bracket.afterComma, skipFrom_value_eq, skipFrom_value_eq, skipSpace_append ha]
  | object => rw [Bracket.afterComma, skipFrom_key_eq, skipFrom_key_eq, skipSpace_append ha]

theorem skipFrom_value_opening (b : Bracket) (brackets : List Bracket) (r : Source) :
    skipFrom .value brackets (some b.opening :: r) = skipFrom b.first (b :: brackets) r := by
  cases b <;> rw [skipFrom_value_eq, skipSpace_cons rfl] <;> rfl

theorem skipFrom_first_closing (ha : IsSpacing a) (b : Bracket) (brackets : List Bracket)
    (r : Source) :
    skipFrom b.first (b :: brackets) (a.map some ++ b.closing :: r) =
      skipFrom .separator brackets r := by
  rw [skipFrom_first_eq, skipSpace_append ha, skipSpace_cons b.isSpace_closing]
  exact if_pos rfl

theorem skipFrom_separator_closing (ha : IsSpacing a) (b : Bracket) (brackets : List Bracket)
    (r : Source) :
    skipFrom .separator (b :: brackets) (a.map some ++ b.closing :: r) =
      skipFrom .separator brackets r := by
  rw [skipFrom_separator_eq, skipSpace_append ha, skipSpace_cons b.isSpace_closing]
  cases b <;> rfl

theorem skipFrom_separator_comma (ha : IsSpacing a) (b : Bracket) (brackets : List Bracket)
    (r : Source) :
    skipFrom .separator (b :: brackets) (a.map some ++ some ',' :: r) =
      skipFrom b.afterComma (b :: brackets) r := by
  rw [skipFrom_separator_eq, skipSpace_append ha, skipSpace_cons rfl]
  rfl

/-- A value without inner values is skipped by itself. -/
theorem skipFrom_value_scalar {c : Char} {t : Source} (hspace : isSpace (some c) = false)
    (harray : c ≠ '[') (hobject : c ≠ '\x7b') (h : skipScalar (some c :: t) = .ok r) :
    skipFrom .value brackets (some c :: t) = skipFrom .separator brackets r := by
  rw [skipFrom_value_eq, skipSpace_cons hspace]
  split
  · rename_i heq
    exact absurd (Option.some.inj (List.cons.inj heq).1) harray
  · rename_i heq
    exact absurd (Option.some.inj (List.cons.inj heq).1) hobject
  · rw [h]
    rfl

theorem skipFrom_first_part {c : Char} (ha : IsSpacing a) (hspace : isSpace (some c) = false)
    (hclosing : some c ≠ b.closing) (brackets : List Bracket) (r : Source) :
    skipFrom b.first (b :: brackets) (a.map some ++ some c :: r) =
      skipFrom b.afterComma (b :: brackets) (some c :: r) := by
  rw [skipFrom_first_eq, skipSpace_append ha, skipSpace_cons hspace]
  exact if_neg hclosing

theorem colon_append (ha : IsSpacing a) (r : Source) :
    skipKey.colon (a.map some ++ some ':' :: r) = .ok r := by
  rw [skipKey.colon, skipSpace_append ha, skipSpace_cons rfl]
  rfl

theorem skipKey_append {k : Text} (hk : IsContent k) (ha : IsSpacing a) (r : Source) :
    skipKey (some '"' :: (k.map some ++ some '"' :: (a.map some ++ some ':' :: r))) = .ok r := by
  rw [skipKey, skipString_append hk]
  exact colon_append ha r

/-! ### Parts and brackets -/

/-- Below a bracket of this kind the text is skipped as one part. -/
structure Bracket.Skips (b : Bracket) (p : Text) : Prop where
  begins : ∃ c t, p = c :: t ∧ isSpace (some c) = false ∧ some c ≠ b.closing
  skips : ∀ (brackets : List Bracket) (r : Source), Ends r →
    skipFrom b.afterComma (b :: brackets) (p.map some ++ r) = skipFrom .separator (b :: brackets) r

section

variable {α : Type} {Part : Text → α → Prop} {xs : List α}

theorem skipFrom_separated (h : Separated Part IsComma s xs)
    (hparts : ∀ p, ∀ x ∈ xs, Part p x → b.Skips p) (ha : IsSpacing a) :
    skipFrom b.afterComma (b :: brackets) (s.map some ++ (a.map some ++ b.closing :: r)) =
      skipFrom .separator brackets r := by
  induction h with
  | last h =>
      have hends := ends_append ha (b.ends_closing r)
      rw [(hparts _ _ List.mem_cons_self h).skips brackets _ hends,
        skipFrom_separator_closing ha]
  | more h hg _ ih =>
      obtain ⟨hbefore, hbehind⟩ := hg
      simp only [List.map_append, List.map_cons, List.append_assoc, List.cons_append]
      rw [(hparts _ _ List.mem_cons_self h).skips brackets _ (ends_append hbefore (ends_comma _)),
        skipFrom_separator_comma hbefore, skipFrom_afterComma_append hbehind]
      exact ih fun p x hx => hparts p x (List.mem_cons_of_mem _ hx)

theorem skipFrom_enclosed (h : Enclosed Part s xs)
    (hparts : ∀ p, ∀ x ∈ xs, Part p x → b.Skips p) (brackets : List Bracket) (r : Source) :
    skipFrom b.first (b :: brackets) (s.map some ++ b.closing :: r) =
      skipFrom .separator brackets r := by
  cases h with
  | nothing ha => exact skipFrom_first_closing ha b brackets r
  | parts ha h hb =>
      obtain ⟨c, t, rfl, hspace, hclosing⟩ :=
        exists_head_of_separated h fun p x hx hp => (hparts p x hx hp).begins
      simp only [List.map_append, List.append_assoc]
      rw [List.map_cons, List.cons_append, skipFrom_first_part ha hspace hclosing]
      exact skipFrom_separated h hparts hb

end

/-! ### Values -/

theorem isSpace_of_isDigit {c : Char} (h : c.isDigit) : isSpace (some c) = false := by
  refine Bool.eq_false_iff.mpr fun hspace => ?_
  simp only [isSpace, Option.some.injEq, Bool.or_eq_true, decide_eq_true_eq] at hspace
  rcases hspace with ((rfl | rfl) | rfl) | rfl <;> exact Bool.false_ne_true h

theorem ne_of_isDigit {c d : Char} (hc : c.isDigit) (hd : d.isDigit = false) : c ≠ d := by
  rintro rfl
  exact Bool.false_ne_true (hd.symm.trans hc)

theorem skipScalar_digit {c : Char} (hc : c.isDigit) (r : Source) :
    skipScalar (some c :: r) = skipNumber (some c :: r) := by
  rw [skipScalar]
  · exact if_pos hc
  all_goals exact fun heq => ne_of_isDigit hc rfl (Option.some.inj heq)

theorem IsMagnitude.exists_digit (h : IsMagnitude s) : ∃ c t, s = c :: t ∧ c.isDigit := by
  obtain ⟨hw, -, -⟩ := h
  obtain ⟨c, t, rfl⟩ := List.exists_cons_of_ne_nil hw.1.1
  exact ⟨c, _, rfl, hw.1.2 c List.mem_cons_self⟩

theorem IsValue.begins (h : IsValue v) :
    ∃ c t, v = c :: t ∧ isSpace (some c) = false ∧ some c ≠ Bracket.array.closing := by
  cases h with
  | word h =>
      simp only [List.mem_cons, List.not_mem_nil, or_false] at h
      rcases h with rfl | rfl | rfl <;> exact ⟨_, _, rfl, rfl, by decide⟩
  | magnitude h =>
      obtain ⟨c, t, rfl, hc⟩ := h.exists_digit
      exact ⟨c, t, rfl, isSpace_of_isDigit hc,
        fun heq => ne_of_isDigit hc rfl (Option.some.inj heq)⟩
  | minus | string | array | object => exact ⟨_, _, rfl, rfl, by decide⟩

theorem WritesField.skips {f : Text × Text} (h : WritesField s f) (hk : IsContent f.1)
    (hv : ∀ (brackets : List Bracket) (r : Source), Ends r →
      skipFrom .value brackets (f.2.map some ++ r) = skipFrom .separator brackets r) :
    Bracket.object.Skips s := by
  obtain ⟨ha, hb⟩ := h
  refine ⟨⟨_, _, rfl, rfl, by decide⟩, fun brackets r hr => ?_⟩
  simp only [List.map_append, List.map_cons, List.append_assoc, List.cons_append]
  rw [Bracket.afterComma, skipFrom_key_eq, skipSpace_cons rfl, skipKey_append hk ha]
  exact (skipFrom_afterComma_append hb .array _ _).trans (hv _ r hr)

/-- Every JSON value is skipped, below whatever brackets it stands. -/
theorem skipFrom_value_append (h : IsValue v) (brackets : List Bracket) (hr : Ends r) :
    skipFrom .value brackets (v.map some ++ r) = skipFrom .separator brackets r := by
  induction h generalizing brackets r with
  | word h =>
      simp only [List.mem_cons, List.not_mem_nil, or_false] at h
      rcases h with rfl | rfl | rfl <;>
        exact skipFrom_value_scalar rfl (by decide) (by decide) (readWord_append _ r)
  | magnitude h =>
      have hskip := skipNumber_append h hr
      obtain ⟨c, t, rfl, hc⟩ := h.exists_digit
      exact skipFrom_value_scalar (isSpace_of_isDigit hc) (ne_of_isDigit hc rfl)
        (ne_of_isDigit hc rfl) ((skipScalar_digit hc _).trans hskip)
  | minus h =>
      exact skipFrom_value_scalar rfl (by decide) (by decide) (skipNumber_append h hr)
  | string h =>
      simp only [List.map_append, List.map_cons, List.append_assoc, List.cons_append]
      exact skipFrom_value_scalar rfl (by decide) (by decide) (skipString_append h r)
  | @array s items h hv ih =>
      have hitems : ∀ p, ∀ v ∈ items, p = v → Bracket.array.Skips p := by
        rintro p _ hmem rfl
        exact ⟨(hv p hmem).begins, fun brackets r hr => ih p hmem _ hr⟩
      simp only [List.map_append, List.map_cons, List.append_assoc, List.cons_append]
      exact (skipFrom_value_opening .array brackets _).trans (skipFrom_enclosed h hitems brackets r)
  | @object s fields h hk _ ih =>
      have hfields : ∀ p, ∀ f ∈ fields, WritesField p f → Bracket.object.Skips p :=
        fun p f hmem hp => hp.skips (hk f hmem) fun brackets r hr => ih f hmem _ hr
      simp only [List.map_append, List.map_cons, List.append_assoc, List.cons_append]
      exact (skipFrom_value_opening .object brackets _).trans
        (skipFrom_enclosed h hfields brackets r)

theorem skipValue_append (ha : IsSpacing a) (h : IsValue v) (hr : Ends r) :
    skipValue (a.map some ++ (v.map some ++ r)) = .ok r := by
  calc
    _ = skipFrom .value [] (v.map some ++ r) := skipFrom_afterComma_append ha .array [] _
    _ = skipFrom .separator [] r := skipFrom_value_append h [] hr
    _ = .ok r := by rw [skipFrom]

end Backtrack.Json
