import Backtrack.Proofs.Deterministic
import Backtrack.Proofs.Language
import Mathlib.Data.List.TakeWhile

/-!
Runs of characters of a class. Repetition of a single character goes on as long as the characters
are of the class, and then gives them back one by one. So on a text that begins with a run its
alternatives are the beginnings of the run, the longest first.
-/

namespace Backtrack

namespace Text

theorem exists_run (accepts : Char → Bool) (t : Text) :
    ∃ s r : Text, s ++ r = t ∧ (∀ c ∈ s, accepts c) ∧ ¬r.head?.any accepts := by
  refine ⟨t.takeWhile accepts, t.dropWhile accepts, List.takeWhile_append_dropWhile,
    fun c => List.mem_takeWhile_imp, ?_⟩
  have hhead := List.head?_dropWhile_not accepts t
  cases hdrop : t.dropWhile accepts with
  | nil => exact Bool.false_ne_true
  | cons c r =>
      rw [hdrop] at hhead
      simpa using hhead

end Text

namespace Grammar

variable {accepts : Char → Bool} {parsers : String → Parser Value} {s r : Text}

def matchesOn (r : Text) : Text → List (Alternative Value)
  | [] => []
  | c :: s => ⟨.text [c], s ++ r⟩ :: matchesOn r s

@[simp] theorem length_matchesOn (r s : Text) : (matchesOn r s).length = s.length := by
  induction s with
  | nil => rfl
  | cons c s ih => exact congrArg Nat.succ ih

theorem runOf_matchesOn (r s : Text) (j : ℕ) :
    Parser.runOf (s ++ r) ((matchesOn r s).take j) =
      ⟨(s.take j).map fun c => .text [c], s.drop j ++ r⟩ := by
  induction s generalizing j with
  | nil => simp [matchesOn, Parser.runOf]
  | cons c s ih =>
      cases j with
      | zero => simp [Parser.runOf]
      | succ j =>
          have hrest := ih j
          simp only [Parser.runOf, Alternative.mk.injEq] at hrest ⊢
          exact ⟨congrArg (Value.text [c] :: ·) hrest.1, hrest.2⟩

theorem toList_satisfy_cons (accepts : Char → Bool) (c : Char) (t : Text) :
    (((satisfy accepts).parser parsers (c :: t)).alternatives ()).toList =
      if accepts c then [⟨.text [c], t⟩] else [] := by
  simp only [parser, Parser.map, Parser.satisfy]
  split <;> rfl

theorem deterministic_satisfy (accepts : Char → Bool) (t : Text) :
    ((satisfy accepts).parser parsers).Deterministic t := by
  refine ⟨fun u _ a ha => ?_, fun u _ => ?_, fun u _ => ?_⟩
  · cases u with
    | nil => exact absurd ha List.not_mem_nil
    | cons c u =>
        rw [toList_satisfy_cons] at ha
        obtain ⟨-, ha⟩ : accepts c ∧ a = ⟨.text [c], u⟩ := by simpa using ha
        rw [ha]
        exact ⟨List.suffix_cons c u, (List.cons_ne_self c u).symm⟩
  · cases u with
    | nil => rfl
    | cons c u =>
        simp only [parser, Parser.map, Parser.satisfy]
        split <;> rfl
  · cases u with
    | nil => exact Nat.zero_le 1
    | cons c u =>
        rw [toList_satisfy_cons]
        split
        · exact le_rfl
        · exact Nat.zero_le 1

/-- Characters of the class match one after the other, up to one that is not of the class. -/
theorem matches_satisfy (hs : ∀ c ∈ s, accepts c) (hr : ¬r.head?.any accepts) :
    ((satisfy accepts).parser parsers).Matches (s ++ r) (matchesOn r s) := by
  induction s with
  | nil =>
      refine .done ?_
      cases r with
      | nil => rfl
      | cons c r =>
          rw [List.nil_append, toList_satisfy_cons]
          exact if_neg hr
  | cons c s ih =>
      rw [List.forall_mem_cons] at hs
      refine .more ?_ (ih hs.2)
      rw [List.cons_append, toList_satisfy_cons]
      exact if_pos hs.1

/-- **Runs of a class of characters.** On a run of characters of the class, with another character
or nothing behind it, repetition offers the beginnings of the run: first the longest that the bounds
admit, and then each one that is shorter by a character, down to the least count. -/
theorem alternatives_run (hs : ∀ c ∈ s, accepts c) (hr : ¬r.head?.any accepts) (b : Bounds) :
    (repeated (satisfy accepts) b).alternatives (s ++ r) =
      (List.range (b.capped s.length + 1 - b.min)).map fun i =>
        ⟨characters (s.take (b.capped s.length - i)), s.drop (b.capped s.length - i) ++ r⟩ := by
  let parsers := Rules.parser [] (Rules.nestingLimit (s ++ r))
  have hdeterministic : ((satisfy accepts).parser parsers).Deterministic (s ++ r) :=
    deterministic_satisfy accepts (s ++ r)
  have hlisting := Parser.listing_repeated_of_matches hdeterministic (matches_satisfy hs hr) b
  have hruns : ((((satisfy accepts).parser parsers).repeated b (s ++ r)).alternatives ()).toList =
      Parser.runs b (s ++ r) (matchesOn r s) := congrArg Listing.items hlisting
  change (Alternatives.map Value.list _).toList = _
  rw [Alternatives.toList_map, hruns, Parser.runs, List.map_map, length_matchesOn]
  refine List.map_congr_left fun i _ => ?_
  rw [Function.comp_apply, runOf_matchesOn]
  rfl

theorem alternatives_many1_satisfy (hs : ∀ c ∈ s, accepts c) (hr : ¬r.head?.any accepts) :
    (many1 (satisfy accepts)).alternatives (s ++ r) =
      (List.range' 1 s.length).reverse.map fun j => ⟨characters (s.take j), s.drop j ++ r⟩ := by
  rw [many1, alternatives_run hs hr, List.reverse_range', List.map_map]
  simp [Bounds.atLeast, Bounds.capped]

/-- What a shorter run leaves over begins with a character of the class. If nothing can go on there,
only the whole run is left. -/
theorem alternatives_run_and {q : Grammar} {b : Bounds} (hs : ∀ c ∈ s, accepts c)
    (hr : ¬r.head?.any accepts) (hb : b.Admits s.length)
    (hq : ∀ u, u.head?.any accepts → q.alternatives u = []) :
    (and (repeated (satisfy accepts) b) q).alternatives (s ++ r) =
      (q.alternatives r).map (Alternative.map (.pair (characters s))) := by
  have hcapped : b.capped s.length = s.length := Bounds.capped_of_admits hb
  have hcount : s.length + 1 - b.min = s.length - b.min + 1 := Nat.succ_sub hb.1
  have hshorter : ∀ i < s.length - b.min,
      q.alternatives (s.drop (s.length - (i + 1)) ++ r) = [] := by
    intro i hi
    have hlt : s.length - (i + 1) < s.length := by omega
    rw [List.drop_eq_getElem_cons hlt]
    exact hq _ (hs _ (List.getElem_mem hlt))
  rw [alternatives_and, alternatives_run hs hr, hcapped, hcount, List.range_succ_eq_map,
    List.map_cons, List.flatMap_cons, Nat.sub_zero, List.take_length, List.drop_length,
    List.nil_append, List.flatMap_eq_nil_iff.mpr, List.append_nil]
  intro a ha
  simp only [List.map_map, List.mem_map, List.mem_range, Function.comp_apply] at ha
  obtain ⟨i, hi, rfl⟩ := ha
  rw [hshorter i hi, List.map_nil]

theorem alternatives_many1_satisfy_and {q : Grammar} (hne : s ≠ []) (hs : ∀ c ∈ s, accepts c)
    (hr : ¬r.head?.any accepts) (hq : ∀ u, u.head?.any accepts → q.alternatives u = []) :
    (and (many1 (satisfy accepts)) q).alternatives (s ++ r) =
      (q.alternatives r).map (Alternative.map (.pair (characters s))) :=
  alternatives_run_and hs hr (admits_atLeast.mpr (List.length_pos_of_ne_nil hne)) hq

end Grammar

end Backtrack
