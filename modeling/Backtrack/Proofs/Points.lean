import Backtrack.Text.Location
import Mathlib.Data.List.Induction
import Mathlib.Data.Prod.Lex
import Mathlib.Order.Bounds.Defs

/-!
Points of a text. Any offset stands for the last point up to it that lies between two characters.
Line and column of a point are where one comes to by going through the text before it character by
character; they grow from each point to the next, so they tell all points of a text apart.
-/

namespace Backtrack

namespace Text

variable {s t : Text} {m n : ℕ}

def IsBoundary (t : Text) (n : ℕ) : Prop := ∃ before, before <+: t ∧ byteLength before = n

/-- The line and the column behind a character: a newline leads to the start of the next line, any
other character to the next column. -/
def advance (point : ℕ × ℕ) (c : Char) : ℕ × ℕ :=
  if c = '\n' then (point.1 + 1, 1) else (point.1, point.2 + 1)

def scan (t : Text) : ℕ × ℕ := t.foldl advance (1, 1)

/-! ### The part of a text up to an offset -/

theorem byteLength_prefix_le (h : s <+: t) : byteLength s ≤ byteLength t := by
  obtain ⟨u, rfl⟩ := h
  rw [byteLength_append]
  exact Nat.le_add_right ..

theorem prefix_takeBytes (h : s <+: t) (hn : byteLength s ≤ n) : s <+: takeBytes n t := by
  fun_induction takeBytes n t generalizing s with
  | case1 n => exact h
  | case2 n c t hc ih =>
      cases s with
      | nil => exact List.nil_prefix
      | cons d s =>
          obtain ⟨rfl, hs⟩ := List.cons_prefix_cons.mp h
          rw [byteLength_cons] at hn
          exact List.cons_prefix_cons.mpr ⟨rfl, ih hs (by omega)⟩
  | case3 n c t hc =>
      cases s with
      | nil => exact List.nil_prefix
      | cons d s =>
          obtain ⟨rfl, -⟩ := List.cons_prefix_cons.mp h
          rw [byteLength_cons] at hn
          omega

theorem takeBytes_mono (t : Text) (h : m ≤ n) : takeBytes m t <+: takeBytes n t := by
  have hfront := takeBytes_prefix m t
  exact prefix_takeBytes hfront ((byteLength_takeBytes_le m t).trans h)

/-! ### Lines and columns -/

/-- Every character leads further, to a later line or to a later column of the same line. -/
theorem toLex_lt_advance (point : ℕ × ℕ) (c : Char) : toLex point < toLex (advance point c) := by
  rw [Prod.Lex.toLex_lt_toLex, advance]
  split
  · exact .inl (Nat.lt_succ_self _)
  · exact .inr ⟨rfl, Nat.lt_succ_self _⟩

theorem toLex_lt_foldl_advance (point : ℕ × ℕ) (h : t ≠ []) :
    toLex point < toLex (t.foldl advance point) := by
  induction t generalizing point with
  | nil => exact absurd rfl h
  | cons c t ih =>
      have hfirst := toLex_lt_advance point c
      rcases eq_or_ne t [] with rfl | hne
      · exact hfirst
      · exact hfirst.trans (ih _ hne)

theorem scan_append (s t : Text) : scan (s ++ t) = t.foldl advance (scan s) := List.foldl_append

/-- Of two beginnings of one text the shorter one leads less far. -/
theorem toLex_scan_lt (h : s <+: t) (hne : s ≠ t) : toLex (scan s) < toLex (scan t) := by
  obtain ⟨u, rfl⟩ := h
  rw [scan_append]
  refine toLex_lt_foldl_advance _ ?_
  rintro rfl
  exact hne (List.append_nil s).symm

theorem toLex_scan_le (h : s <+: t) : toLex (scan s) ≤ toLex (scan t) := by
  rcases eq_or_ne s t with rfl | hne
  · exact le_rfl
  · exact (toLex_scan_lt h hne).le

theorem eq_of_scan_eq (h : s <+: t) (hscan : scan s = scan t) : s = t := by
  by_contra hne
  exact (toLex_scan_lt h hne).ne (congrArg toLex hscan)

theorem lastLine_append_singleton (t : Text) (c : Char) :
    lastLine (t ++ [c]) = if c = '\n' then [] else lastLine t ++ [c] := by
  rw [lastLine, List.reverse_append, List.reverse_singleton, List.singleton_append,
    List.takeWhile_cons]
  by_cases hc : c = '\n'
  · simp [hc]
  · simp [hc, lastLine]

/-- The line counts the newlines from the start, and the column the characters back to the last of
them. -/
theorem scan_eq (t : Text) : scan t = (t.count '\n' + 1, (lastLine t).length + 1) := by
  -- From the end, since both sides are about the last newline.
  induction t using List.reverseRecOn with
  | nil => rfl
  | append_singleton t c ih =>
      rw [scan_append, ih, lastLine_append_singleton, List.foldl_cons, List.foldl_nil, advance]
      by_cases hc : c = '\n'
      · simp [hc]
      · simp [hc]

end Text

namespace Location

open Text

variable {t : Text} {m n : ℕ}

def position (l : Location) : ℕ × ℕ := (l.line, l.column)

theorem position_locate (t : Text) (n : ℕ) : (locate t n).position = scan (takeBytes n t) :=
  (scan_eq _).symm

theorem isBoundary_offset_locate (t : Text) (n : ℕ) : t.IsBoundary (locate t n).offset :=
  ⟨takeBytes n t, takeBytes_prefix n t, rfl⟩

theorem offset_locate_append (s t : Text) :
    (locate (s ++ t) (byteLength s)).offset = byteLength s := by
  rw [locate, takeBytes_append]

theorem position_locate_append (s t : Text) :
    (locate (s ++ t) (byteLength s)).position = scan s := by
  rw [position_locate, takeBytes_append]

/-- A point between two characters is not moved. -/
theorem offset_locate (h : t.IsBoundary n) : (locate t n).offset = n := by
  obtain ⟨before, ⟨behind, rfl⟩, rfl⟩ := h
  exact offset_locate_append before behind

/-- A location is that of its own offset. -/
theorem locate_offset (t : Text) (n : ℕ) : locate t (locate t n).offset = locate t n := by
  obtain ⟨behind, hbehind⟩ := takeBytes_prefix n t
  have htake : takeBytes (byteLength (takeBytes n t)) t = takeBytes n t := by
    nth_rewrite 2 [← hbehind]
    exact takeBytes_append _ _
  change locate t (byteLength (takeBytes n t)) = locate t n
  rw [locate, htake, locate]

theorem offset_locate_mono (t : Text) (h : m ≤ n) : (locate t m).offset ≤ (locate t n).offset :=
  byteLength_prefix_le (takeBytes_mono t h)

theorem isGreatest_offset_locate (t : Text) (n : ℕ) :
    IsGreatest {m | t.IsBoundary m ∧ m ≤ min n t.byteLength} (locate t n).offset := by
  constructor
  · have hfront := takeBytes_prefix n t
    exact ⟨isBoundary_offset_locate t n,
      le_min (byteLength_takeBytes_le n t) (byteLength_prefix_le hfront)⟩
  · rintro _ ⟨⟨before, hbefore, rfl⟩, hle⟩
    exact byteLength_prefix_le (prefix_takeBytes hbefore (hle.trans (min_le_left _ _)))

/-- Line and column determine the part of the text before them. -/
theorem takeBytes_eq_of_scan_eq (h : scan (takeBytes m t) = scan (takeBytes n t)) :
    takeBytes m t = takeBytes n t := by
  rcases le_total m n with hmn | hnm
  · exact eq_of_scan_eq (takeBytes_mono t hmn) h
  · exact (eq_of_scan_eq (takeBytes_mono t hnm) h.symm).symm

/-- **Locations are exact.** The offset that is found for `n` is the greatest up to `n` and up to
the end of the text at which no character is cut in two. Line and column are those that the
characters before it lead to, one after the other. A later offset has no earlier line, and on the
same line no earlier column; and two offsets have the same line and column only if the same offset
is found for both, so line and column determine it. -/
theorem locate_is_exact (t : Text) :
    (∀ n, IsGreatest {m | t.IsBoundary m ∧ m ≤ min n t.byteLength} (locate t n).offset) ∧
    (∀ n, ∃ before behind, before ++ behind = t ∧ byteLength before = (locate t n).offset ∧
      (locate t n).position = scan before) ∧
    (∀ m n, m ≤ n → toLex (locate t m).position ≤ toLex (locate t n).position) ∧
    ∀ m n, (locate t m).position = (locate t n).position ↔
      (locate t m).offset = (locate t n).offset := by
  refine ⟨isGreatest_offset_locate t, fun n => ?_, fun m n h => ?_, fun m n => ⟨fun h => ?_,
    fun h => ?_⟩⟩
  · obtain ⟨behind, hbehind⟩ := takeBytes_prefix n t
    exact ⟨takeBytes n t, behind, hbehind, rfl, position_locate t n⟩
  · rw [position_locate, position_locate]
    exact toLex_scan_le (takeBytes_mono t h)
  · rw [position_locate, position_locate] at h
    exact congrArg byteLength (takeBytes_eq_of_scan_eq h)
  · rw [← locate_offset t m, ← locate_offset t n, h]

/-- An offset between the two bytes of a letter stands for the start of the letter, and one far
behind the end for the end. The newline behind the letter is on the same line. -/
theorem locate_is_exact_accent :
    let t : Text := ['a', '\n', 'é', '\n', 'b']
    locate t 3 = ⟨2, 2, 1⟩ ∧ locate t 4 = ⟨4, 2, 2⟩ ∧ locate t 100 = ⟨6, 3, 2⟩ ∧
      (3 ≤ 4 ∧ toLex (locate t 3).position ≤ toLex (locate t 4).position) ∧
      ((locate t 2).position = (locate t 3).position ↔
        (locate t 2).offset = (locate t 3).offset) := by
  intro t
  obtain ⟨-, -, hle, hposition⟩ := locate_is_exact t
  have h : 3 ≤ 4 := by decide
  exact ⟨by decide, by decide, by decide, ⟨h, hle 3 4 h⟩, hposition 2 3⟩

end Location

end Backtrack
