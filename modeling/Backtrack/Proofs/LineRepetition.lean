import Backtrack.Proofs.CharacterRuns
import Backtrack.Proofs.Lines

/-!
Repetition of lines. A text consists of lines, each of which ends with its newline, and of what
stands behind the last newline. As a line goes up to the next newline and no further, a repetition
of lines takes these lines one after the other, and gives them back from the last one on. So there
is one alternative for each number of lines from the beginning of the text.
-/

namespace Backtrack

namespace Text

/-- A line with its newline, which is the only one. -/
def IsLine (l : Text) : Prop := ∃ s, '\n' ∉ s ∧ s ++ ['\n'] = l

theorem IsLine.count_newline {l : Text} (h : l.IsLine) : l.count '\n' = 1 := by
  obtain ⟨s, hs, rfl⟩ := h
  rw [List.count_append, List.count_eq_zero_of_not_mem hs, List.count_singleton_self]

theorem IsLine.getLast? {l : Text} (h : l.IsLine) : l.getLast? = some '\n' := by
  obtain ⟨s, -, rfl⟩ := h
  exact List.getLast?_concat

theorem IsLine.length_pos {l : Text} (h : l.IsLine) : 0 < l.length := by
  obtain ⟨s, -, rfl⟩ := h
  simp

theorem count_newline_of_lines {ls : List Text} {tail : Text} (hls : ∀ l ∈ ls, l.IsLine)
    (htail : '\n' ∉ tail) : (ls.flatten ++ tail).count '\n' = ls.length := by
  rw [List.count_append, List.count_eq_zero_of_not_mem htail, Nat.add_zero]
  induction ls with
  | nil => rfl
  | cons l ls ih =>
      rw [List.forall_mem_cons] at hls
      rw [List.flatten_cons, List.count_append, hls.1.count_newline, ih hls.2, List.length_cons,
        Nat.add_comm]

theorem exists_lines (t : Text) :
    ∃ (ls : List Text) (tail : Text), (∀ l ∈ ls, l.IsLine) ∧ '\n' ∉ tail ∧
      ls.flatten ++ tail = t := by
  induction t using lines_induction with
  | nil => exact ⟨[], [], by simp, by simp, rfl⟩
  | last l _ hl => exact ⟨[], l, by simp, hl, rfl⟩
  | line l t hl ih =>
      obtain ⟨ls, tail, hls, htail, rfl⟩ := ih
      refine ⟨(l ++ ['\n']) :: ls, tail, ?_, htail, by simp⟩
      exact List.forall_mem_cons.mpr ⟨⟨l, hl, rfl⟩, hls⟩

end Text

namespace Grammar

open Text

def lineRun (ls : List Text) (tail : Text) (j : ℕ) : Alternative (List Value) :=
  ⟨(ls.take j).map .text, (ls.drop j).flatten ++ tail⟩

theorem lineRun_zero (ls : List Text) (tail : Text) :
    lineRun ls tail 0 = ⟨[], ls.flatten ++ tail⟩ := rfl

/-- A run up to the newline is continued by nothing but the newline. -/
theorem alternatives_many_and_newline {s r : Text} (hs : '\n' ∉ s)
    (hr : ¬r.head?.any (· != '\n')) :
    (and (many (satisfy (· != '\n'))) (char '\n')).alternatives (s ++ r) =
      ((char '\n').alternatives r).map (Alternative.map (.pair (characters s))) := by
  refine alternatives_run_and (fun c hc => bne_iff_ne.mpr fun heq => hs (heq ▸ hc)) hr
    (admits_atLeast.mpr (Nat.zero_le _)) fun u hu => alternatives_char_eq_nil fun hnewline => ?_
  rw [hnewline] at hu
  exact absurd hu (by decide)

/-- A line is taken as a whole, in one way only. -/
theorem alternatives_line {l : Text} (hl : l.IsLine) (t : Text) :
    line.alternatives (l ++ t) = [⟨.text l, t⟩] := by
  obtain ⟨s, hs, rfl⟩ := hl
  have hnewline : (char '\n').alternatives ('\n' :: t) = [⟨.text ['\n'], t⟩] :=
    alternatives_satisfy_cons (· == '\n') '\n' t
  rw [line, alternatives_map, List.append_assoc, List.singleton_append,
    alternatives_many_and_newline hs (by simp), hnewline]
  simp [Alternative.map, asText, Value.toText]

theorem alternatives_line_eq_nil {t : Text} (ht : '\n' ∉ t) : line.alternatives t = [] := by
  rw [line, alternatives_map, ← List.append_nil t,
    alternatives_many_and_newline ht (by simp), alternatives_char_eq_nil (by simp)]
  rfl

/-- The runs of lines take as many lines as there are, then one less, and so on down to none. -/
theorem runs_line {ls : List Text} {tail : Text} (hls : ∀ l ∈ ls, l.IsLine) (htail : '\n' ∉ tail)
    (count : ℕ) :
    line.runs (.atLeast 0) count (ls.flatten ++ tail) =
      (List.range (ls.length + 1)).reverse.map (lineRun ls tail) := by
  induction ls generalizing count with
  | nil =>
      rw [runs_atLeast_zero, List.flatten_nil, List.nil_append, alternatives_line_eq_nil htail]
      rfl
  | cons l ls ih =>
      rw [List.forall_mem_cons] at hls
      have hshorter : (ls.flatten ++ tail).length < (l ++ (ls.flatten ++ tail)).length := by
        rw [@List.length_append _ l]
        exact Nat.lt_add_of_pos_left hls.1.length_pos
      rw [runs_atLeast_zero, List.flatten_cons, List.append_assoc, alternatives_line hls.1,
        List.flatMap_singleton, if_pos hshorter, ih hls.2, List.map_map, List.length_cons,
        List.range_succ_eq_map (n := ls.length + 1), List.reverse_cons, List.map_append,
        ← List.map_reverse, List.map_map, List.map_singleton, lineRun_zero, List.flatten_cons,
        List.append_assoc]
      rfl

/-- **Repetition of lines.** On a text with `m` newlines it comes to its end after `m + 1`
alternatives. The `k`-th of them, counted from zero, has `m - k` texts as its value, each with a
newline at its end and no other one, and these followed by the rest are the whole text. The first
alternative leaves over what stands behind the last newline. -/
theorem many_line_gives_back_lines (t : Text) :
    (((many line).under [] t).alternatives ()).ends ∧
      ((many line).alternatives t).length = t.count '\n' + 1 ∧
      (∀ k a, ((many line).alternatives t)[k]? = some a → ∃ ls : List Text,
        a.value = .list (ls.map .text) ∧ ls.length = t.count '\n' - k ∧
          (∀ l ∈ ls, l.count '\n' = 1 ∧ l.getLast? = some '\n') ∧ ls.flatten ++ a.rest = t) ∧
      ∃ a, ((many line).alternatives t).head? = some a ∧ '\n' ∉ a.rest := by
  obtain ⟨ls, tail, hls, htail, rfl⟩ := exists_lines t
  have halternatives : (many line).alternatives (ls.flatten ++ tail) =
      (List.range (ls.length + 1)).reverse.map fun j => (lineRun ls tail j).map .list := by
    rw [many, alternatives_repeated, runs_line hls htail, List.map_map]
    rfl
  rw [halternatives, count_newline_of_lines hls htail]
  refine ⟨ends_under_nil _ _, by simp, fun k a hk => ?_, (lineRun ls tail ls.length).map .list,
    ?_, ?_⟩
  · rw [List.getElem?_map, Option.map_eq_some_iff] at hk
    obtain ⟨j, hj, rfl⟩ := hk
    obtain ⟨hlt, hj⟩ := List.getElem?_eq_some_iff.mp hj
    have hk : j = ls.length - k := by
      rw [← hj, List.getElem_reverse, List.getElem_range, List.length_range]
      omega
    refine ⟨ls.take j, rfl, ?_, fun l hl => ?_, ?_⟩
    · rw [List.length_take, hk, Nat.min_eq_left (Nat.sub_le _ k)]
    · have hline := hls l (List.mem_of_mem_take hl)
      exact ⟨hline.count_newline, hline.getLast?⟩
    · change (ls.take j).flatten ++ ((ls.drop j).flatten ++ tail) = ls.flatten ++ tail
      rw [← List.append_assoc, ← List.flatten_append, List.take_append_drop]
  · rw [List.range_succ, List.reverse_concat, List.map_cons, List.head?_cons]
  · simpa [lineRun, Alternative.map] using htail

/-- Two lines, one of them empty, and a last one without a newline. The second alternative gives
back the empty line. -/
theorem many_line_gives_back_lines_empty :
    let t : Text := ['a', '\n', '\n', 'b']
    ((many line).alternatives t).map (·.rest) = [['b'], ['\n', 'b'], t] ∧
      ∃ a, ((many line).alternatives t)[1]? = some a ∧ ∃ ls : List Text,
        a.value = .list (ls.map .text) ∧ ls.length = 1 ∧
          (∀ l ∈ ls, l.count '\n' = 1 ∧ l.getLast? = some '\n') ∧ ls.flatten ++ a.rest = t := by
  intro t
  have hlength : 1 < ((many line).alternatives t).length := by decide +kernel
  have hget : ((many line).alternatives t)[1]? = some ((many line).alternatives t)[1] :=
    List.getElem?_eq_getElem hlength
  exact ⟨by decide +kernel, _, hget, (many_line_gives_back_lines t).2.2.1 1 _ hget⟩

end Grammar

end Backtrack
