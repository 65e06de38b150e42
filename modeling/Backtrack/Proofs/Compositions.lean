import Backtrack.Proofs.CharacterRuns

/-!
Repetition of a repetition. On copies of one character a run of runs cuts the text into groups, none
of which is empty. Those that go to the end of the text are the compositions of its length, the ways
to write it as a sum of positive numbers in a row; as the outer repetition tries the longest group
first, on what is left again the longest, and so on, they come in descending order.
-/

namespace Backtrack

/-- A list of group lengths whose first group gets one member more. -/
def enlargeFirst : List ℕ → List ℕ
  | [] => []
  | k :: ks => (k + 1) :: ks

/-- The compositions of a number: one more joins the first group, or is a group of its own in front
of it. -/
def compositions : ℕ → List (List ℕ)
  | 0 => [[]]
  | 1 => [[1]]
  | n + 2 => (compositions (n + 1)).map enlargeFirst ++ (compositions (n + 1)).map (1 :: ·)

theorem reverse_range'_one_succ (n : ℕ) :
    (List.range' 1 (n + 1)).reverse = (List.range' 1 n).reverse.map (1 + ·) ++ [1] := by
  rw [List.range'_succ, List.reverse_cons, List.map_reverse, List.map_add_range']

/-- The first group takes any number of members, from all of them down to a single one, and what it
leaves over is grouped in all ways. -/
theorem compositions_succ (n : ℕ) :
    compositions (n + 1) =
      (List.range' 1 (n + 1)).reverse.flatMap fun k =>
        (compositions (n + 1 - k)).map (k :: ·) := by
  induction n with
  | zero => rfl
  | succ n ih =>
      have henlarged : (compositions (n + 1)).map enlargeFirst =
          ((List.range' 1 (n + 1)).reverse.map (1 + ·)).flatMap fun k =>
            (compositions (n + 2 - k)).map (k :: ·) := by
        rw [ih, List.map_flatMap, List.flatMap_map]
        refine List.flatMap_congr fun k _ => ?_
        rw [List.map_map, Nat.add_comm 1 k, Nat.add_sub_add_right (n + 1) 1 k]
        rfl
      rw [compositions, henlarged, reverse_range'_one_succ (n + 1), List.flatMap_append,
        List.flatMap_singleton]
      rfl

theorem mem_compositions_iff {n : ℕ} {ks : List ℕ} :
    ks ∈ compositions n ↔ (∀ k ∈ ks, 0 < k) ∧ ks.sum = n := by
  induction n using Nat.strong_induction_on generalizing ks with
  | _ n ih =>
      cases n with
      | zero =>
          rw [compositions, List.mem_singleton]
          constructor
          · rintro rfl
            exact ⟨fun k hk => absurd hk List.not_mem_nil, rfl⟩
          · rintro ⟨hpos, hsum⟩
            cases ks with
            | nil => rfl
            | cons k ks =>
                rw [List.forall_mem_cons] at hpos
                rw [List.sum_cons] at hsum
                omega
      | succ n =>
          simp only [compositions_succ, List.mem_flatMap, List.mem_reverse, List.mem_range'_1,
            List.mem_map]
          constructor
          · rintro ⟨k, hk, ks, hks, rfl⟩
            obtain ⟨hpos, hsum⟩ := (ih _ (by omega)).mp hks
            refine ⟨List.forall_mem_cons.mpr ⟨hk.1, hpos⟩, ?_⟩
            rw [List.sum_cons, hsum]
            omega
          · rintro ⟨hpos, hsum⟩
            cases ks with
            | nil => cases hsum
            | cons k ks =>
                rw [List.forall_mem_cons] at hpos
                rw [List.sum_cons] at hsum
                exact ⟨k, by omega, ks, (ih _ (by omega)).mpr ⟨hpos.2, by omega⟩, rfl⟩

theorem length_compositions (n : ℕ) : (compositions n).length = 2 ^ (n - 1) := by
  induction n using compositions.induct with
  | case1 => rfl
  | case2 => rfl
  | case3 n ih =>
      rw [compositions, List.length_append, List.length_map, List.length_map, ih,
        Nat.add_sub_cancel, Nat.add_sub_cancel (n + 1) 1, Nat.pow_succ, Nat.mul_two]

/-- Each composition is greater than those behind it, in lexicographic order. -/
theorem compositions_descending (n : ℕ) : (compositions n).Pairwise (· > ·) := by
  induction n using Nat.strong_induction_on with
  | _ n ih =>
      cases n with
      | zero => exact List.pairwise_singleton _ _
      | succ n =>
          rw [compositions_succ, List.pairwise_flatMap]
          constructor
          · intro k hk
            rw [List.mem_reverse, List.mem_range'_1] at hk
            refine List.pairwise_map.mpr ((ih _ (by omega)).imp fun h => ?_)
            exact List.cons_lt_cons_iff.mpr (.inr ⟨rfl, h⟩)
          · refine (List.pairwise_reverse.mpr (List.pairwise_lt_range' 1)).imp fun hlt => ?_
            rintro _ hks _ hks'
            obtain ⟨ks, -, rfl⟩ := List.mem_map.mp hks
            obtain ⟨ks', -, rfl⟩ := List.mem_map.mp hks'
            exact List.cons_lt_cons_iff.mpr (.inl hlt)

theorem head?_compositions_succ (n : ℕ) : (compositions (n + 1)).head? = some [n + 1] := by
  rw [compositions_succ, List.range'_concat, List.reverse_append]
  simp [compositions, Nat.add_comm]

example : compositions 3 = [[3], [2, 1], [1, 2], [1, 1, 1]] := rfl

namespace Grammar

def groups (c : Char) : Grammar := and (many (many1 (char c))) endOfInput

def groupsOf (c : Char) (ks : List ℕ) : List Value :=
  ks.map fun k => characters (List.replicate k c)

theorem alternatives_many1_replicate (c : Char) (n : ℕ) :
    (many1 (char c)).alternatives (List.replicate n c) =
      (List.range' 1 n).reverse.map fun k =>
        ⟨characters (List.replicate k c), List.replicate (n - k) c⟩ := by
  have halternatives : (many1 (char c)).alternatives (List.replicate n c ++ []) = _ :=
    alternatives_many1_satisfy (fun d hd => by simp [List.eq_of_mem_replicate hd]) (by simp)
  rw [List.append_nil, List.length_replicate] at halternatives
  rw [halternatives]
  refine List.map_congr_left fun k hk => ?_
  rw [List.mem_reverse, List.mem_range'_1] at hk
  rw [List.take_replicate, List.drop_replicate, List.append_nil, Nat.min_eq_left (by omega)]

theorem filter_rest_map {α β : Type} (f : α → β) (as : List (Alternative α)) :
    (as.map (Alternative.map f)).filter (·.rest = []) =
      (as.filter (·.rest = [])).map (Alternative.map f) :=
  List.filter_map

/-- The runs of groups that leave nothing over are the compositions, however many groups came
before. -/
theorem filter_runs_replicate (c : Char) (n count : ℕ) :
    ((many1 (char c)).runs (.atLeast 0) count (List.replicate n c)).filter (·.rest = []) =
      (compositions n).map fun ks => ⟨groupsOf c ks, []⟩ := by
  induction n using Nat.strong_induction_on generalizing count with
  | _ n ih =>
      rw [runs_atLeast_zero, alternatives_many1_replicate]
      cases n with
      | zero => rfl
      | succ n =>
          -- The run that ends here leaves something over, and a group leaves less than there was.
          have hstop : [(⟨[], List.replicate (n + 1) c⟩ : Alternative (List Value))].filter
              (·.rest = []) = [] := rfl
          rw [List.filter_append, hstop, List.append_nil, List.flatMap_map, List.filter_flatMap,
            compositions_succ, List.map_flatMap]
          refine List.flatMap_congr fun k hk => ?_
          rw [List.mem_reverse, List.mem_range'_1] at hk
          have hless :
              (List.replicate (n + 1 - k) c).length < (List.replicate (n + 1) c).length := by
            rw [List.length_replicate, List.length_replicate]
            omega
          rw [if_pos hless, filter_rest_map, ih _ (by omega), List.map_map, List.map_map]
          rfl

/-- **Nested repetition enumerates the compositions.** On `n` copies of a character, the runs of
runs up to the end of the text come to an end, and their groups have the lengths that the
compositions of `n` say, one alternative for each. These are the lists of positive numbers with the
sum `n`, in strictly descending lexicographic order; there are `2 ^ (n - 1)` of them, one if `n` is
zero, and the first has all copies in one group. -/
theorem groups_are_compositions (c : Char) (n : ℕ) :
    (((groups c).under [] (List.replicate n c)).alternatives ()).ends ∧
      (((groups c).under [] (List.replicate n c)).alternatives ()).toList =
        (compositions n).map (fun ks => ⟨.pair (.list (groupsOf c ks)) .unit, []⟩) ∧
      (∀ ks, ks ∈ compositions n ↔ (∀ k ∈ ks, 0 < k) ∧ ks.sum = n) ∧
      (compositions n).Pairwise (· > ·) ∧
      (compositions n).length = 2 ^ (n - 1) ∧
      (compositions n).head? = some (if n = 0 then [] else [n]) := by
  refine ⟨ends_under_nil _ _, ?_, fun ks => mem_compositions_iff, compositions_descending n,
    length_compositions n, ?_⟩
  · change (groups c).alternatives _ = _
    rw [groups, alternatives_and_endOfInput, many, alternatives_repeated, filter_rest_map,
      filter_runs_replicate, List.map_map, List.map_map]
    rfl
  · cases n with
    | zero => rfl
    | succ n => exact head?_compositions_succ n

end Grammar

end Backtrack
