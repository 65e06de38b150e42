import Backtrack.Json.Basic
import Backtrack.Proofs.Integers
import Backtrack.Text.Lines
import Mathlib.Data.List.TakeWhile

/-!
Lines. What follows a text that ends where a line ends does not change the lines of the text, so
the lines of a whole are those of its parts. The compact text of a JSON value stays on one line,
whatever texts the value holds.
-/

namespace Backtrack

namespace Text

def EndsLine (t : Text) : Prop := t = [] ∨ t.getLast? = some '\n'

instance (t : Text) : Decidable (EndsLine t) := inferInstanceAs (Decidable (_ ∨ _))

/-! ### One line after the other -/

@[simp] theorem lines_nil : lines [] = [] := by
  rw [lines]
  rfl

theorem lines_of_not_mem {l : Text} (hne : l ≠ []) (hl : '\n' ∉ l) : lines l = [l] := by
  have hall : l.dropWhile (· != '\n') = [] := by
    rw [List.dropWhile_eq_nil_iff]
    exact fun c hc => bne_iff_ne.mpr fun heq => hl (heq ▸ hc)
  have hempty : l.isEmpty = false := by simpa using hne
  rw [lines]
  split
  · rw [hempty]
    rfl
  · rename_i hrest
    rw [hall] at hrest
    cases hrest

theorem lines_append_newline {l : Text} (hl : '\n' ∉ l) (t : Text) :
    lines (l ++ '\n' :: t) = dropReturn l :: lines t := by
  have hall : ∀ c ∈ l, (c != '\n') = true :=
    fun c hc => bne_iff_ne.mpr fun heq => hl (heq ▸ hc)
  have hdrop : (l ++ '\n' :: t).dropWhile (· != '\n') = '\n' :: t := by
    rw [List.dropWhile_append_of_pos hall]
    rfl
  have htake : (l ++ '\n' :: t).takeWhile (· != '\n') = l := by
    rw [List.takeWhile_append_of_pos hall]
    exact List.append_nil l
  rw [lines]
  split
  · rename_i hnil
    rw [hdrop] at hnil
    cases hnil
  · rename_i hrest
    rw [hdrop] at hrest
    obtain ⟨-, rfl⟩ := List.cons.inj hrest
    rw [htake]

/-- A property of texts that is passed on from what follows a line to the whole, and that holds of
texts without a newline. -/
@[elab_as_elim]
theorem lines_induction {P : Text → Prop} (nil : P [])
    (last : ∀ l, l ≠ [] → '\n' ∉ l → P l)
    (line : ∀ l t, '\n' ∉ l → P t → P (l ++ '\n' :: t)) (t : Text) : P t := by
  induction hn : t.length using Nat.strong_induction_on generalizing t with
  | _ n ih =>
      by_cases hmem : '\n' ∈ t
      · obtain ⟨l, rest, rfl, hl⟩ := List.eq_append_cons_of_mem hmem
        refine line l rest hl (ih _ ?_ rest rfl)
        rw [← hn, List.length_append, List.length_cons]
        omega
      · rcases eq_or_ne t [] with rfl | hne
        · exact nil
        · exact last t hne hmem

theorem dropReturn_subset (l : Text) : dropReturn l ⊆ l := by
  unfold dropReturn
  split
  · exact List.dropLast_subset l
  · exact List.Subset.refl l

theorem newline_not_mem_of_mem_lines {t l : Text} (h : l ∈ lines t) : '\n' ∉ l := by
  induction t using lines_induction with
  | nil => simp at h
  | last l' hne hl' =>
      rw [lines_of_not_mem hne hl', List.mem_singleton] at h
      exact h ▸ hl'
  | line l' t hl' ih =>
      rw [lines_append_newline hl', List.mem_cons] at h
      rcases h with rfl | h
      · exact fun hmem => hl' (dropReturn_subset l' hmem)
      · exact ih h

theorem lines_append {s : Text} (hs : s.EndsLine) (t : Text) :
    lines (s ++ t) = lines s ++ lines t := by
  induction s using lines_induction with
  | nil => rw [List.nil_append, lines_nil, List.nil_append]
  | last l hne hl =>
      rcases hs with rfl | hlast
      · exact absurd rfl hne
      · exact absurd (List.mem_of_getLast? hlast) hl
  | line l s hl ih =>
      have hends : s.EndsLine := by
        cases s with
        | nil => exact .inl rfl
        | cons c s =>
            rcases hs with hnil | hlast
            · simp at hnil
            · have hsome : (c :: s).getLast?.isSome := by simp
              rw [List.getLast?_append, List.getLast?_cons_cons,
                Option.or_of_isSome hsome] at hlast
              exact .inr hlast
      rw [List.append_assoc, List.cons_append, lines_append_newline hl, lines_append_newline hl,
        ih hends, List.cons_append]

/-- Lines that are written one by one are read as they are. -/
theorem lines_flatMap {ls : List Text} (h : ∀ l ∈ ls, '\n' ∉ l ∧ l.getLast? ≠ some '\r') :
    lines (ls.flatMap (· ++ ['\n'])) = ls := by
  induction ls with
  | nil => exact lines_nil
  | cons l ls ih =>
      rw [List.forall_mem_cons] at h
      have hline : dropReturn l = l := if_neg h.1.2
      rw [List.flatMap_cons, List.append_assoc, List.singleton_append,
        lines_append_newline h.1.1, hline, ih h.2]

/-! ### Lines that are not blank -/

theorem exists_first_line {ls : List Text} (h : ∃ l ∈ ls, ¬∀ c ∈ l, isBlank c) :
    ∃ before line later, ls = before ++ line :: later ∧ (∀ l ∈ before, ∀ c ∈ l, isBlank c) ∧
      ¬∀ c ∈ line, isBlank c := by
  have hsome : (ls.find? fun l => !l.all isBlank).isSome := by simpa using h
  obtain ⟨line, hfind⟩ := Option.isSome_iff_exists.mp hsome
  obtain ⟨hline, before, later, hls, hbefore⟩ := List.find?_eq_some_iff_append.mp hfind
  exact ⟨before, line, later, hls, by simpa using hbefore, by simpa using hline⟩

theorem numberedLines_eq_cons {t line : Text} {before later : List Text}
    (h : t.lines = before ++ line :: later) (hbefore : ∀ l ∈ before, ∀ c ∈ l, isBlank c)
    (hline : ¬∀ c ∈ line, isBlank c) :
    ∃ more, t.numberedLines = (before.length + 1, line) :: more := by
  have hfirst : line.all isBlank = false := Bool.eq_false_iff.mpr (mt List.all_eq_true.mp hline)
  rw [numberedLines, h, List.zipIdx_append, List.filterMap_append,
    List.filterMap_eq_nil_iff.mpr ?blanks, List.nil_append, List.zipIdx_cons, List.filterMap_cons]
  case blanks =>
    intro x hx
    exact if_pos (List.all_eq_true.mpr (hbefore _ (List.fst_mem_of_mem_zipIdx hx)))
  simp only [hfirst, Bool.false_eq_true, if_false, Nat.add_comm 1]
  exact ⟨_, rfl⟩

end Text

/-! ### JSON texts -/

namespace Decimal

open Backtrack.Text

theorem newline_not_mem_ofNat (n : ℕ) : '\n' ∉ ofNat n := by
  intro h
  have hdigit := isDigit_of_mem_ofNat h
  exact absurd hdigit (by decide)

theorem newline_not_mem_toText (style : Style) (x : Decimal) : '\n' ∉ x.toText style := by
  have hdigits := newline_not_mem_ofNat x.coefficient
  unfold toText
  generalize ofNat x.coefficient = digits at hdigits
  dsimp only
  split
  · split
    · simp [hdigits]
    · split
      · have htake (n : ℕ) : '\n' ∉ digits.take n := fun h => hdigits (List.mem_of_mem_take h)
        have hdrop (n : ℕ) : '\n' ∉ digits.drop n := fun h => hdigits (List.mem_of_mem_drop h)
        simp [htake, hdrop]
      · simp [hdigits]
  · have hsign (p : Prop) [Decidable p] : ¬ '\n' = if p then '+' else '-' := by
      split <;> decide
    split
    · simp only [List.mem_cons, not_or] at hdigits
      simp [hdigits, newline_not_mem_ofNat, hsign]
    · simp [hdigits, newline_not_mem_ofNat, hsign]

end Decimal

namespace Json

theorem newline_not_mem_numberText (x : Float) : '\n' ∉ numberText x := by
  have hdigits : '\n' ∉ if (Decimal.Binary.ofFloat x).mantissa = 0 then ['0', '.', '0']
      else (Decimal.Binary.ofFloat x).shortest.toText numberStyle := by
    split
    · decide
    · exact Decimal.newline_not_mem_toText numberStyle _
  unfold numberText Decimal.ofFloat?
  split
  · dsimp only
    split <;> simp [hdigits]
  · decide

theorem newline_not_mem_escape (c : Char) : '\n' ∉ escape c := by
  have hdigit : ∀ n < 16, ¬ '\n' = Nat.digitChar n := by decide
  unfold escape
  split
  case h_8 hnewline _ _ =>
    split
    · have hhigh := hdigit (c.toNat / 16) (by omega)
      have hlow := hdigit (c.toNat % 16) (Nat.mod_lt _ (by decide))
      simp [hhigh, hlow]
    · simpa using Ne.symm hnewline
  all_goals decide

theorem newline_not_mem_quote (s : Text) : '\n' ∉ quote s := by
  simp [quote, newline_not_mem_escape]

mutual

/-- The text of a value has no newline: those in strings are escaped. -/
theorem newline_not_mem_toText : ∀ j : Json, '\n' ∉ j.toText
  | null => by decide
  | bool b => by cases b <;> decide
  | integer n => by
      rw [toText]
      cases n <;> simp [Text.ofInt, Decimal.newline_not_mem_ofNat]
  | number x => by rw [toText]; exact newline_not_mem_numberText x
  | string s => by rw [toText]; exact newline_not_mem_quote s
  | array items => by
      rw [toText]
      simp [newline_not_mem_itemsText items]
  | object fields => by
      rw [toText]
      simp [newline_not_mem_fieldsText fields]

theorem newline_not_mem_itemsText : ∀ items : List Json, '\n' ∉ toText.itemsText items
  | [] => List.not_mem_nil
  | [v] => by
      rw [toText.itemsText]
      exact newline_not_mem_toText v
  | v :: w :: vs => by
      rw [toText.itemsText]
      · simp [newline_not_mem_toText v, newline_not_mem_itemsText (w :: vs)]
      · simp

theorem newline_not_mem_fieldsText : ∀ fields : List (Text × Json), '\n' ∉ toText.fieldsText fields
  | [] => List.not_mem_nil
  | [(k, v)] => by
      rw [toText.fieldsText]
      simp [newline_not_mem_quote, newline_not_mem_toText v]
  | (k, v) :: f :: fs => by
      rw [toText.fieldsText]
      · simp [newline_not_mem_quote, newline_not_mem_toText v, newline_not_mem_fieldsText (f :: fs)]
      · simp

end

theorem getLast?_toText_object (fields : List (Text × Json)) :
    (object fields).toText.getLast? = some '\x7d' := by
  rw [toText, List.getLast?_concat]

end Json

end Backtrack
