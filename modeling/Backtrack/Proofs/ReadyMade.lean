import Backtrack.Kind
import Backtrack.Proofs.LongestFirst
import Backtrack.Proofs.Selection

/-!
The ready-made grammars are greedy: their alternatives take less and less. Behind a shorter number
or word stands a digit or a letter, behind shorter white space stands white space, and none of the
grammars goes on with a character of these. So the first alternative decides on every text: it is
the longest, it is the only one that can be complete, and an error is located at its end.
-/

namespace Backtrack

namespace Text

/-! ### Classes of characters -/

def isInlineBlank (c : Char) : Bool := isBlank c && c != '\n'

def startsInteger (c : Char) : Bool := c == '-' || c.isDigit

theorem isUpper_iff_toNat {c : Char} : c.isUpper ↔ 65 ≤ c.toNat ∧ c.toNat ≤ 90 := by
  have hbounds : c.isUpper ↔ 65 ≤ c.val ∧ c.val ≤ 90 := decide_eq_true_iff
  rw [hbounds, UInt32.le_iff_toNat_le, UInt32.le_iff_toNat_le]
  rfl

theorem isLower_iff_toNat {c : Char} : c.isLower ↔ 97 ≤ c.toNat ∧ c.toNat ≤ 122 := by
  have hbounds : c.isLower ↔ decide (97 ≤ c.val) ∧ decide (c.val ≤ 122) := Bool.and_eq_true_iff
  rw [hbounds, decide_eq_true_iff, decide_eq_true_iff, UInt32.le_iff_toNat_le,
    UInt32.le_iff_toNat_le]
  rfl

theorem isAlpha_iff {c : Char} : c.isAlpha ↔ c.isUpper ∨ c.isLower := Bool.or_eq_true_iff

theorem toNat_of_isDigit {c : Char} (h : c.isDigit) : 48 ≤ c.toNat ∧ c.toNat ≤ 57 :=
  Char.isDigit_iff_toNat.mp h

theorem toNat_of_isAlpha {c : Char} (h : c.isAlpha) : 65 ≤ c.toNat ∧ c.toNat ≤ 122 := by
  rw [isAlpha_iff, isUpper_iff_toNat, isLower_iff_toNat] at h
  omega

theorem toNat_of_isInlineBlank {c : Char} (h : isInlineBlank c) :
    c.toNat ≤ 32 ∨ 133 ≤ c.toNat := by
  simp only [isInlineBlank, isBlank, Bool.and_eq_true, Bool.or_eq_true, decide_eq_true_eq,
    beq_iff_eq] at h
  omega

namespace Apart

variable {cls cls' other : Char → Bool}

theorem symm (h : Apart cls cls') : Apart cls' cls := fun c hc hcls => h c hcls hc

theorem or (h : Apart cls other) (h' : Apart cls' other) :
    Apart (fun c => cls c || cls' c) other := by
  intro c hc
  rcases Bool.or_eq_true_iff.mp hc with hc | hc
  · exact h c hc
  · exact h' c hc

theorem char {d : Char} (h : cls d = false) : Apart (· == d) cls := by
  intro c hc
  rw [beq_iff_eq.mp hc, h]
  exact Bool.false_ne_true

end Apart

theorem apart_upper_lower : Apart Char.isUpper Char.isLower := by
  intro c hupper hlower
  rw [isUpper_iff_toNat] at hupper
  rw [isLower_iff_toNat] at hlower
  omega

theorem apart_alpha_digit : Apart Char.isAlpha Char.isDigit := by
  intro c halpha hdigit
  have hcode := toNat_of_isAlpha halpha
  have hcode' := toNat_of_isDigit hdigit
  omega

theorem apart_blank_digit : Apart isInlineBlank Char.isDigit := by
  intro c hblank hdigit
  have hcode := toNat_of_isInlineBlank hblank
  have hcode' := toNat_of_isDigit hdigit
  omega

theorem apart_blank_alpha : Apart isInlineBlank Char.isAlpha := by
  intro c hblank halpha
  have hcode := toNat_of_isInlineBlank hblank
  have hcode' := toNat_of_isAlpha halpha
  omega

theorem apart_startsInteger {cls : Char → Bool} (hminus : cls '-' = false)
    (hdigit : Apart Char.isDigit cls) : Apart startsInteger cls :=
  (Apart.char hminus).or hdigit

end Text

namespace Grammar

open Text

/-! ### Numbers, words and white space -/

theorem longestFirst_run (accepts : Char → Bool) (b : Bounds) :
    (repeated (satisfy accepts) b).LongestFirst accepts :=
  (longestFirst_satisfy accepts _).run (.satisfy accepts) (beginsIn_satisfy accepts) b

theorem beginsIn_run (accepts : Char → Bool) {b : Bounds} (hmin : 0 < b.min) :
    (repeated (satisfy accepts) b).BeginsIn accepts :=
  (beginsIn_satisfy accepts).repeated (.satisfy accepts) hmin

theorem longestFirst_minus : (optional (char '-')).LongestFirst (· == '-') :=
  (longestFirst_satisfy _ _).optional (.satisfy _) (beginsIn_satisfy _)

/-- Behind an optional minus sign that is left out nothing else can begin. -/
theorem longestFirst_signed {p : Grammar} {cls first : Char → Bool} (h : p.LongestFirst cls)
    (hfirst : p.BeginsIn first) (hminus : first '-' = false) :
    (and (optional (char '-')) p).LongestFirst cls :=
  longestFirst_minus.and_of_beginsIn h hfirst (Apart.char hminus)

theorem beginsIn_signed {p : Grammar} {first : Char → Bool} (hfirst : p.BeginsIn first) :
    (and (optional (char '-')) p).BeginsIn fun c => c == '-' || first c := by
  intro t hrests
  rw [rests_and, rests_optional] at hrests
  by_cases hnil : (char '-').rests t = []
  · rw [hnil, List.nil_append, List.flatMap_singleton] at hrests
    exact any_head?_or_right (hfirst t hrests)
  · exact any_head?_or_left (beginsIn_satisfy _ t hnil)

theorem int_eq_filterMap :
    int = filterMap (and (optional (char '-')) (many1 digit))
      fun v => (readInt64? v.toText).map .int := by
  refine congrArg (bind _) (funext fun v => ?_)
  dsimp only
  cases readInt64? v.toText <;> rfl

theorem longestFirst_int : int.LongestFirst Char.isDigit := by
  rw [int_eq_filterMap]
  exact (longestFirst_signed (longestFirst_run _ _) (beginsIn_run _ Nat.one_pos) rfl).filterMap _

theorem beginsIn_int : int.BeginsIn startsInteger := by
  rw [int_eq_filterMap]
  exact (beginsIn_signed (beginsIn_run _ Nat.one_pos)).filterMap _

theorem consumes_alpha : alpha.Consumes := .or (.satisfy _) (.satisfy _)

theorem longestFirst_alpha : alpha.LongestFirst fun _ => false :=
  (longestFirst_satisfy _ fun _ => false).or (longestFirst_satisfy _ fun _ => false)
    (beginsIn_satisfy _) (beginsIn_satisfy _) apart_upper_lower

theorem beginsIn_alpha : alpha.BeginsIn Char.isAlpha :=
  (beginsIn_satisfy Char.isUpper).or (beginsIn_satisfy Char.isLower)

theorem longestFirst_name : name.LongestFirst Char.isAlpha :=
  (longestFirst_alpha.run consumes_alpha beginsIn_alpha _).map asText

theorem beginsIn_name : name.BeginsIn Char.isAlpha :=
  (beginsIn_alpha.repeated consumes_alpha Nat.one_pos).map asText

end Grammar

namespace Kind

open Text Grammar

/-! ### The grammars of the kinds -/

theorem consumes_comma : comma.Consumes := .andFirst (.satisfy _)

theorem beginsIn_comma : comma.BeginsIn (· == ',') := (beginsIn_satisfy _).and _

/-- Behind a shorter alternative there is no padding. -/
theorem longestFirst_padding {p : Grammar} {cls : Char → Bool} (h : p.LongestFirst cls)
    (hapart : Apart cls isInlineBlank) :
    (Grammar.and p (many whitespace)).LongestFirst fun c => cls c || isInlineBlank c := by
  have hblank : (many whitespace).LongestFirst fun c => cls c || isInlineBlank c :=
    (longestFirst_run isInlineBlank _).mono fun c hc => by rw [hc, Bool.or_true]
  refine h.and hblank fun t ht r hr => ?_
  have hnone : whitespace.rests t = [] := (beginsIn_satisfy isInlineBlank).rests_eq_nil hapart ht
  have hrests : (many whitespace).rests t = [t] := by
    rw [rests_many (p := whitespace) (.satisfy _), hnone]
    rfl
  exact ⟨List.mem_singleton.mp (hrests ▸ hr), any_head?_or_left ht⟩

theorem longestFirst_comma : comma.LongestFirst isInlineBlank :=
  longestFirst_padding (longestFirst_satisfy _ fun _ => false) apart_none

theorem longestFirst_padded {p : Grammar} {cls : Char → Bool} (h : p.LongestFirst cls)
    (hapart : Apart cls isInlineBlank) :
    (padded p).LongestFirst fun c => cls c || isInlineBlank c :=
  (longestFirst_padding h hapart).map Value.first

theorem beginsIn_padded {p : Grammar} {first : Char → Bool} (h : p.BeginsIn first) :
    (padded p).BeginsIn first :=
  (h.and _).map Value.first

theorem decimal_eq_filterMap :
    decimal = filterMap
      (.and (.optional (char '-')) (.and (many1 digit) (.and (char '.') (many1 digit))))
      fun v => (Decimal.read? v.toText).map .float := by
  refine congrArg (Grammar.bind _) (funext fun v => ?_)
  dsimp only
  cases Decimal.read? v.toText <;> rfl

theorem longestFirst_decimal : decimal.LongestFirst Char.isDigit := by
  have hfraction : (Grammar.and (char '.') (many1 digit)).LongestFirst Char.isDigit :=
    (longestFirst_satisfy _ fun _ => false).and_of_beginsIn (longestFirst_run _ _)
      (beginsIn_run _ Nat.one_pos) apart_none
  have hunsigned := (longestFirst_run Char.isDigit (.atLeast 1)).and_of_beginsIn hfraction
    ((beginsIn_satisfy _).and _) (Apart.char rfl).symm
  rw [decimal_eq_filterMap]
  exact (longestFirst_signed hunsigned ((beginsIn_run _ Nat.one_pos).and _) rfl).filterMap _

theorem beginsIn_binding : binding.BeginsIn Char.isAlpha := (beginsIn_padded beginsIn_name).and _

theorem longestFirst_binding : binding.LongestFirst fun c => c.isDigit || c.isAlpha := by
  have hvalue : (Grammar.or .int name).LongestFirst fun c => c.isDigit || c.isAlpha :=
    longestFirst_int.or longestFirst_name beginsIn_int beginsIn_name
      (apart_startsInteger rfl apart_alpha_digit.symm)
  have hequals : (padded (char '=')).LongestFirst isInlineBlank :=
    longestFirst_padded (longestFirst_satisfy _ fun _ => false) apart_none
  -- White space behind the sign is no beginning of a value, and letters or white space behind the
  -- key are no sign.
  have hrest := hequals.and_of_beginsIn hvalue (beginsIn_int.or beginsIn_name)
    ((apart_startsInteger rfl apart_blank_digit.symm).or apart_blank_alpha.symm).symm
  exact (longestFirst_padded longestFirst_name apart_blank_alpha.symm).and_of_beginsIn hrest
    ((beginsIn_padded (beginsIn_satisfy _)).and _)
    ((Apart.char rfl).symm.or (Apart.char rfl).symm)

theorem rests_growing (k : Kind) (t : Text) :
    (k.grammar.rests t).Pairwise fun r r' => r.length < r'.length := by
  cases k with
  | int => exact (longestFirst_int t).growing
  | ints =>
      exact longestFirst_int.separatedBy beginsIn_int longestFirst_comma beginsIn_comma
        consumes_comma (Apart.char rfl).symm (apart_startsInteger rfl apart_blank_digit.symm).symm t
  | float => exact (longestFirst_decimal t).growing
  | words =>
      exact longestFirst_name.separatedBy beginsIn_name (longestFirst_run _ _)
        (beginsIn_run _ Nat.one_pos) (.repeated (.satisfy _) Nat.one_pos) apart_blank_alpha.symm
        apart_blank_alpha t
  | keyValue =>
      exact longestFirst_binding.separatedBy beginsIn_binding longestFirst_comma beginsIn_comma
        consumes_comma ((Apart.char rfl).symm.or (Apart.char rfl).symm) apart_blank_alpha t

end Kind

/-! ### Runs of greedy parsers -/

theorem Alternative.consumed_eq_iff {α : Type} {a : Alternative α} {t : Text} (h : a.rest <:+ t) :
    a.consumed t = t.byteLength ↔ a.rest = [] := by
  have hle := Text.byteLength_le_of_suffix h
  rw [consumed, ← Text.byteLength_eq_zero]
  omega

namespace Parser

open Backtrack.Alternatives

variable {α : Type} {p : Parser α} {t : Text}

/-- On the text there are finitely many alternatives, which take less and less of it. -/
structure Greedy (p : Parser α) (t : Text) : Prop where
  ends : ((p t).alternatives ()).ends
  suffix : ∀ a ∈ ((p t).alternatives ()).toList, a.rest <:+ t
  growing : ((p t).alternatives ()).toList.Pairwise fun a b => a.rest.length < b.rest.length

namespace Greedy

theorem byteLength_growing (h : p.Greedy t) :
    ((p t).alternatives ()).toList.Pairwise fun a b => a.rest.byteLength < b.rest.byteLength := by
  refine h.growing.imp_of_mem fun {a b} ha hb hlt => ?_
  rcases List.suffix_or_suffix_of_suffix (h.suffix a ha) (h.suffix b hb) with hsuffix | hsuffix
  · exact (Text.byteLength_lt_iff_of_suffix hsuffix).mpr hlt
  · exact absurd hsuffix.length_le (Nat.not_le.mpr hlt)

theorem consumed_decreasing (h : p.Greedy t) :
    (((p t).alternatives ()).toList.map (·.consumed t)).Pairwise (· > ·) := by
  rw [List.pairwise_map]
  refine h.byteLength_growing.imp_of_mem fun {a b} _ hb hlt => ?_
  have hle := Text.byteLength_le_of_suffix (h.suffix b hb)
  simp only [Alternative.consumed]
  omega

theorem rests_nodup (h : p.Greedy t) :
    (((p t).alternatives ()).toList.map (·.rest)).Nodup := by
  rw [List.Nodup, List.pairwise_map]
  exact h.growing.imp fun hlt heq => Nat.ne_of_lt hlt (congrArg List.length heq)

section Decides

variable {a : Alternative α} {as : List (Alternative α)} {o : Options}

theorem first_or_lt (h : p.Greedy t) (has : ((p t).alternatives ()).toList = a :: as) :
    ∀ b ∈ ((p t).alternatives ()).toList, b = a ∨ a.rest.byteLength < b.rest.byteLength := by
  have hgrowing := h.byteLength_growing
  rw [has] at hgrowing ⊢
  intro b hb
  rcases List.mem_cons.mp hb with rfl | hb
  · exact .inl rfl
  · exact .inr (List.rel_of_pairwise_cons hgrowing hb)

theorem byteLength_first_le (h : p.Greedy t) (has : ((p t).alternatives ()).toList = a :: as) :
    ∀ b ∈ ((p t).alternatives ()).toList, a.rest.byteLength ≤ b.rest.byteLength := by
  intro b hb
  rcases h.first_or_lt has b hb with rfl | hlt
  · exact le_rfl
  · exact hlt.le

/-- If the first alternative is not acceptable, none is. -/
theorem not_accepts (h : p.Greedy t) (has : ((p t).alternatives ()).toList = a :: as)
    (ha : ¬o.accepts a) : ∀ b ∈ ((p t).alternatives ()).toList, ¬o.accepts b := by
  intro b hb haccepts
  rcases h.first_or_lt has b hb with rfl | hlt
  · exact ha haccepts
  · simp only [Options.accepts, Bool.or_eq_true, Bool.not_eq_true', List.isEmpty_iff] at ha haccepts
    rcases haccepts with hany | hempty
    · exact ha (.inl hany)
    · rw [hempty] at hlt
      exact absurd hlt (Nat.not_lt_zero _)

theorem mostConsumed_take (h : p.Greedy t) (has : ((p t).alternatives ()).toList = a :: as)
    {n : ℕ} (hpos : 1 ≤ n) :
    mostConsumed t (((p t).alternatives ()).toList.take n) = a.consumed t := by
  refine mostConsumed_eq t ?_ fun b hb => h.byteLength_first_le has b (List.mem_of_mem_take hb)
  rw [has, ← Nat.sub_add_cancel hpos]
  exact List.mem_cons_self

theorem furthestOf_eq (h : p.Greedy t) (has : ((p t).alternatives ()).toList = a :: as) :
    furthestOf none ((p t).alternatives ()).toList = some a.rest := by
  have hne : ((p t).alternatives ()).toList ≠ [] := by simp [has]
  have hmem : a ∈ ((p t).alternatives ()).toList := by simp [has]
  obtain ⟨b, hb, hfurthest, hleast⟩ := exists_furthestOf_eq hne
  rcases h.first_or_lt has b hb with rfl | hlt
  · exact hfurthest
  · exact absurd (hleast a hmem) (Nat.not_le.mpr hlt)

theorem result_run_nil (h : p.Greedy t) (has : ((p t).alternatives ()).toList = []) :
    (p.run o t).result = some (.error (.noParse (.locate t 0))) := by
  rw [run_of_ends p o t h.ends (by simp [has]) (by simp [Options.Allows, has]), has]
  rfl

/-- The first alternative decides: it is the result, or the error is located at its end. -/
theorem result_run_cons (h : p.Greedy t) (has : ((p t).alternatives ()).toList = a :: as)
    (hallows : o.Allows 1) :
    (p.run o t).result = some (
      if o.accepts a then .ok a.value
      else
        match o.maxAlternatives.filter (·.toNat ≤ as.length) with
        | some limit => .error (.limitReached limit (.locate t (a.consumed t)))
        | none => .error (.incomplete (.locate t (a.consumed t)) a.rest)) := by
  have hlength : ((p t).alternatives ()).toList.length = as.length + 1 := by rw [has]; rfl
  split
  · rename_i haccepts
    rw [run_of_accepts p o t (i := 0) (by rw [has]; rfl) haccepts
      (fun b hb => absurd hb List.not_mem_nil) hallows]
  · rename_i haccepts
    have hnone := h.not_accepts has haccepts
    cases hlimit : o.maxAlternatives.filter (·.toNat ≤ as.length) with
    | some limit =>
        obtain ⟨hmem, hle⟩ := Option.filter_eq_some_iff.mp hlimit
        have hlt : limit.toNat < ((p t).alternatives ()).toList.length := by
          rw [hlength]
          exact Nat.lt_succ_of_le (of_decide_eq_true hle)
        rw [run_of_limit p o t hmem (fun b hb => hnone b (List.mem_of_mem_take hb)) hlt,
          h.mostConsumed_take has (hallows limit hmem)]
    | none =>
        have hends : o.Allows ((p t).alternatives ()).toList.length := by
          intro limit hmem
          have hlt := Option.filter_eq_none_iff.mp hlimit limit hmem
          rw [decide_eq_true_eq, not_le] at hlt
          rwa [hlength]
        rw [run_of_ends p o t h.ends hnone hends, h.furthestOf_eq has]
        rfl

theorem result_run_eq_ok_iff (h : p.Greedy t) (hallows : o.Allows 1) {v : α} :
    (p.run o t).result = some (.ok v) ↔
      ∃ a ∈ ((p t).alternatives ()).toList.head?, o.accepts a ∧ a.value = v := by
  cases has : ((p t).alternatives ()).toList with
  | nil => simp [h.result_run_nil has]
  | cons a as =>
      rw [h.result_run_cons has hallows]
      by_cases haccepts : o.accepts a
      · simp [haccepts]
      · rw [if_neg haccepts]
        simp only [List.head?_cons, Option.mem_some_iff, exists_eq_left', haccepts,
          Bool.false_eq_true, false_and, iff_false]
        split <;> simp

/-- A limit of at least one changes errors only. -/
theorem ok_of_limit_iff (h : p.Greedy t) (complete : Bool) {limit : UInt64}
    (hpos : 1 ≤ limit.toNat) (v : α) :
    (p.run ⟨complete, some limit⟩ t).result = some (.ok v) ↔
      (p.run ⟨complete, none⟩ t).result = some (.ok v) := by
  have hlimited : (⟨complete, some limit⟩ : Options).Allows 1 := by
    intro limit' hlimit'
    obtain rfl := Option.some.inj hlimit'
    exact hpos
  rw [h.result_run_eq_ok_iff hlimited, h.result_run_eq_ok_iff (Options.allows_of_none rfl)]
  rfl

/-- An incomplete parse ends where the first alternative ends. -/
theorem eq_first_of_incomplete (h : p.Greedy t) {location : Location} {remaining : Text}
    (hrun : (p.run o t).result = some (.error (.incomplete location remaining))) :
    ∃ a ∈ ((p t).alternatives ()).toList.head?,
      location = .locate t (a.consumed t) ∧ remaining = a.rest := by
  cases has : ((p t).alternatives ()).toList with
  | nil =>
      rw [h.result_run_nil has] at hrun
      cases hrun
  | cons a as =>
      refine ⟨a, rfl, ?_⟩
      by_cases hallows : o.Allows 1
      · rw [h.result_run_cons has hallows] at hrun
        split at hrun
        · cases hrun
        · split at hrun <;> cases hrun
          exact ⟨rfl, rfl⟩
      -- With a limit of zero the first alternative is not looked at.
      · simp only [Options.Allows, not_forall, not_le, Nat.lt_one_iff] at hallows
        obtain ⟨limit, hmem, hzero⟩ := hallows
        have hnone : ∀ b ∈ ((p t).alternatives ()).toList.take limit.toNat, ¬o.accepts b := by
          rw [hzero]
          exact fun b hb => absurd hb List.not_mem_nil
        rw [run_of_limit p o t hmem hnone (by rw [hzero, has]; exact Nat.succ_pos _)] at hrun
        cases hrun

/-- A run for the whole text finds the alternative that leaves nothing over. -/
theorem runComplete_eq_ok_iff (h : p.Greedy t) {v : α} :
    (p.runComplete t).result = some (.ok v) ↔ ⟨v, []⟩ ∈ ((p t).alternatives ()).toList := by
  rw [runComplete, h.result_run_eq_ok_iff (Options.allows_of_none rfl)]
  constructor
  · rintro ⟨⟨w, r⟩, hfirst, haccepts, rfl⟩
    obtain rfl : r = [] := by simpa [Options.accepts] using haccepts
    exact List.mem_of_mem_head? hfirst
  · intro hmem
    obtain ⟨a, as, has⟩ := List.exists_cons_of_ne_nil (List.ne_nil_of_mem hmem)
    rw [has]
    rcases h.first_or_lt has _ hmem with heq | hlt
    · exact ⟨a, rfl, by rw [← heq]; rfl, by rw [← heq]⟩
    · exact absurd hlt (Nat.not_lt_zero _)

theorem exists_runComplete_iff (h : p.Greedy t) :
    (∃ v, (p.runComplete t).result = some (.ok v)) ↔
      ∃ a ∈ ((p t).alternatives ()).toList.head?, a.consumed t = t.byteLength := by
  have hallows : ({} : Options).Allows 1 := Options.allows_of_none rfl
  constructor
  · rintro ⟨v, hrun⟩
    obtain ⟨a, hfirst, haccepts, -⟩ := (h.result_run_eq_ok_iff hallows).mp hrun
    refine ⟨a, hfirst, ?_⟩
    rw [Alternative.consumed_eq_iff (h.suffix a (List.mem_of_mem_head? hfirst))]
    simpa [Options.accepts] using haccepts
  · rintro ⟨a, hfirst, hall⟩
    rw [Alternative.consumed_eq_iff (h.suffix a (List.mem_of_mem_head? hfirst))] at hall
    exact ⟨a.value, (h.result_run_eq_ok_iff hallows).mpr
      ⟨a, hfirst, by simp [Options.accepts, hall], rfl⟩⟩

/-- What a run for the whole text finds, a run for the first alternative finds too. -/
theorem runFirst_of_runComplete (h : p.Greedy t) {v : α}
    (hrun : (p.runComplete t).result = some (.ok v)) :
    (p.runFirst t).result = some (.ok v) := by
  rw [runComplete, h.result_run_eq_ok_iff (Options.allows_of_none rfl)] at hrun
  obtain ⟨a, hfirst, -, hvalue⟩ := hrun
  rw [runFirst, h.result_run_eq_ok_iff (Options.allows_of_none rfl)]
  exact ⟨a, hfirst, rfl, hvalue⟩

end Decides

end Greedy

end Parser

namespace Kind

open Text Grammar

theorem toList_alternatives (k : Kind) (t : Text) :
    ((k.parser t).alternatives ()).toList =
      (k.grammar.alternatives t).map (Alternative.map k.toJson) :=
  Alternatives.toList_map k.toJson _

theorem greedy (k : Kind) (t : Text) : k.parser.Greedy t where
  ends := (Alternatives.ends_map k.toJson _).trans (ends_under_nil k.grammar t)
  suffix := by
    rw [toList_alternatives]
    intro a ha
    obtain ⟨b, hb, rfl⟩ := List.mem_map.mp ha
    exact rest_suffix hb
  growing := by
    have hgrowing := List.pairwise_map.mp (rests_growing k t)
    rw [toList_alternatives, List.pairwise_map]
    exact hgrowing

/-- **Greedy is enough.** On every text the alternatives of a kind are finitely many, each takes
the text up to some point, and they take less and less. So no two of them leave over the same, and
the first is the longest. A run for the whole text succeeds if and only if the first alternative
takes all of it, with the same result as a run for the first alternative; an incomplete parse is
reported where the first alternative ends; and a limit of at least one accepts the same texts
with the same values as no limit. -/
theorem greedy_is_enough (k : Kind) (t : Text) :
    let as := ((k.parser t).alternatives ()).toList
    ((k.parser t).alternatives ()).ends ∧
    (∀ a ∈ as, ∃ taken, taken ++ a.rest = t ∧ taken.byteLength = a.consumed t) ∧
    (as.map (·.consumed t)).Pairwise (· > ·) ∧
    (as.map (·.rest)).Nodup ∧
    (∀ a ∈ as.head?, ∀ b ∈ as, b.consumed t ≤ a.consumed t) ∧
    ((∃ j, (k.parser.runComplete t).result = some (.ok j)) ↔
      ∃ a ∈ as.head?, a.consumed t = t.byteLength) ∧
    (∀ j, (k.parser.runComplete t).result = some (.ok j) →
      (k.parser.runFirst t).result = some (.ok j)) ∧
    (∀ o location remaining,
      (k.parser.run o t).result = some (.error (.incomplete location remaining)) →
      ∃ a ∈ as.head?, location = .locate t (a.consumed t) ∧ remaining = a.rest) ∧
    ∀ complete limit j, 1 ≤ UInt64.toNat limit →
      ((k.parser.run ⟨complete, some limit⟩ t).result = some (.ok j) ↔
        (k.parser.run ⟨complete, none⟩ t).result = some (.ok j)) := by
  intro as
  have h := k.greedy t
  refine ⟨h.ends, fun a ha => Alternative.exists_append_eq_of_suffix (h.suffix a ha),
    h.consumed_decreasing, h.rests_nodup, fun a hfirst b hb => ?_, h.exists_runComplete_iff,
    fun j => h.runFirst_of_runComplete, fun o location remaining => h.eq_first_of_incomplete,
    fun complete limit j hpos => h.ok_of_limit_iff complete hpos j⟩
  obtain ⟨bs, has⟩ := List.head?_eq_some_iff.mp hfirst
  exact Nat.sub_le_sub_left (h.byteLength_first_le has b hb) _

/-- A pair with a comma behind it, which no second pair follows: the first alternative leaves the
comma over, another one also a digit. Without the comma the text is complete. -/
theorem greedy_is_enough_pair :
    let p := keyValue.parser
    let t : Text := ['a', '=', ' ', '1', '2', ',']
    let t' : Text := ['a', '=', ' ', '1', '2']
    ((p t).alternatives ()).toList.map (fun a => (a.consumed t, a.rest)) =
        [(5, [',']), (4, ['2', ','])] ∧
      (p.run {} t).result = some (.error (.incomplete ⟨5, 1, 6⟩ [','])) ∧
      (∃ a ∈ ((p t).alternatives ()).toList.head?,
        (⟨5, 1, 6⟩ : Location) = .locate t (a.consumed t) ∧ [','] = a.rest) ∧
      ∃ j, (p.runComplete t').result = some (.ok j) ∧ (p.runFirst t').result = some (.ok j) ∧
        1 ≤ UInt64.toNat 1 ∧ (p.run ⟨true, some 1⟩ t').result = some (.ok j) := by
  intro p t t'
  have hrun : (p.run {} t).result = some (.error (.incomplete ⟨5, 1, 6⟩ [','])) := by
    have herror : (p.run {} t).result.map (fun r => match r with
        | .error e => some e
        | .ok _ => none) = some (some (.incomplete ⟨5, 1, 6⟩ [','])) := by decide +kernel
    rcases hresult : (p.run {} t).result with _ | e | j
    · simp [hresult] at herror
    · simpa [hresult] using herror
    · simp [hresult] at herror
  have hall : ∃ a ∈ ((p t').alternatives ()).toList.head?, a.consumed t' = t'.byteLength := by
    decide +kernel
  obtain ⟨j, hj⟩ := (greedy_is_enough keyValue t').2.2.2.2.2.1.mpr hall
  refine ⟨by decide +kernel, hrun, ?_, j, hj, ?_, by decide, ?_⟩
  · exact (greedy_is_enough keyValue t).2.2.2.2.2.2.2.1 {} _ _ hrun
  · exact (greedy_is_enough keyValue t').2.2.2.2.2.2.1 j hj
  · exact ((greedy_is_enough keyValue t').2.2.2.2.2.2.2.2 true 1 j (by decide)).mpr hj

end Kind

end Backtrack
