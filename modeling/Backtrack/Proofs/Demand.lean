import Backtrack.Parser.Basic
import Backtrack.Proofs.Listing
import Mathlib.Data.List.Basic
import Mathlib.Order.Bounds.Basic

/-!
Work on demand. The calls that pulls make are those of the parts that have to be worked out for
the alternatives that were asked for, in the order in which they are needed: a concatenation
drains the branches that come before, and the second part of a choice is not touched before the
first one is exhausted.
-/

namespace Backtrack

namespace Alternatives

variable {α β : Type}

/-- The alternatives of a sequence, each with the calls of the pull that brings it. -/
def steps : Alternatives α → List (List Call × Alternative α)
  | exhausted _ => []
  | cutOff _ => []
  | next calls a tail => (calls, a) :: steps (tail ())

/-- How many alternatives the branches of the first `j` alternatives hold together. -/
def held (f : Alternative α → Opening β) (s : Alternatives α) (j : ℕ) : ℕ :=
  ((s.toList.take j).map fun a => ((f a).alternatives ()).toList.length).sum

end Alternatives

namespace Opening

variable {α : Type}

def drain (o : Opening α) : List Call := (o.pull ((o.alternatives ()).toList.length + 1)).calls

end Opening

namespace Alternatives

variable {α β : Type}

/-- Earlier calls are made by the first pull, and nothing else changes. -/
theorem pull_after (k : ℕ) (c : List Call) (s : Alternatives α) :
    (pull (k + 1) fun _ => s.after c) =
      { pull (k + 1) (fun _ => s) with calls := c ++ (pull (k + 1) fun _ => s).calls } := by
  cases s <;> simp [pull]

theorem calls_pull_after (k : ℕ) (c : List Call) (s : Alternatives α) :
    (pull (k + 1) fun _ => s.after c).calls = c ++ (pull (k + 1) fun _ => s).calls := by
  rw [pull_after]

theorem pull_append_of_le (later : Unit → Opening α) {k : ℕ} {s : Alternatives α}
    (h : k ≤ s.toList.length) : (pull k fun _ => append later s) = pull k fun _ => s := by
  induction s generalizing k with
  | exhausted c =>
      obtain rfl : k = 0 := Nat.le_zero.mp h
      rfl
  | cutOff c => rfl
  | next c a tail ih =>
      cases k with
      | zero => rfl
      | succ k =>
          simp only [append_next, pull, ih () (Nat.le_of_succ_le_succ h)]

/-- To get beyond the first sequence it is pulled until it tells its end, and only then is the
second one opened. -/
theorem calls_pull_append_of_lt (later : Unit → Opening α) {k : ℕ} {s : Alternatives α}
    (hends : s.ends) (h : s.toList.length < k) :
    (pull k fun _ => append later s).calls =
      (pull (s.toList.length + 1) fun _ => s).calls ++
        ((later ()).pull (k - s.toList.length)).calls := by
  induction s generalizing k with
  | exhausted c =>
      obtain ⟨k, rfl⟩ := Nat.exists_eq_succ_of_ne_zero (Nat.ne_of_gt h)
      rw [append_exhausted, calls_pull_after]
      simp [pull, Opening.pull, toList]
  | cutOff c => cases hends
  | next c a tail ih =>
      obtain ⟨k, rfl⟩ := Nat.exists_eq_succ_of_ne_zero (Nat.ne_of_gt (Nat.zero_lt_of_lt h))
      have hlt : (tail ()).toList.length < k := Nat.lt_of_succ_lt_succ h
      have htail := ih () hends hlt
      simp only [append_next, pull, htail, toList, List.length_cons, List.append_assoc,
        Nat.succ_eq_add_one, Nat.add_sub_add_right]

theorem ends_of_length_lt {later : Unit → Opening α} {s : Alternatives α}
    (h : s.toList.length < (append later s).toList.length) : s.ends := by
  by_contra hends
  have hlist : (append later s).listing = s.listing := by
    rw [listing_append]
    exact if_neg hends
  have hitems : (append later s).toList = s.toList := congrArg Listing.items hlist
  rw [hitems] at h
  exact lt_irrefl _ h

theorem held_zero (f : Alternative α → Opening β) (s : Alternatives α) : s.held f 0 = 0 := rfl

theorem held_next_succ (f : Alternative α → Opening β) (c : List Call) (a : Alternative α)
    (tail : Unit → Alternatives α) (j : ℕ) :
    (next c a tail).held f (j + 1) =
      ((f a).alternatives ()).toList.length + (tail ()).held f j := rfl

/-- If the first branch holds enough, it alone is needed. -/
theorem isLeast_held_one {f : Alternative α → Opening β} {c : List Call} {a : Alternative α}
    {tail : Unit → Alternatives α} {k : ℕ} (hk : 1 ≤ k)
    (h : k ≤ ((f a).alternatives ()).toList.length) :
    IsLeast { j | k ≤ (next c a tail).held f j } 1 := by
  constructor
  · exact h.trans (Nat.le_add_right _ _)
  · rintro (_ | j) hj
    · exact absurd (hk.trans hj) (Nat.not_succ_le_zero 0)
    · exact Nat.le_add_left 1 j

/-- If the first branch does not hold enough, the others have to hold what is missing. -/
theorem isLeast_held_succ {f : Alternative α → Opening β} {c : List Call} {a : Alternative α}
    {tail : Unit → Alternatives α} {k i : ℕ}
    (h : ((f a).alternatives ()).toList.length < k)
    (hi : IsLeast { j | k - ((f a).alternatives ()).toList.length ≤ (tail ()).held f j } i) :
    IsLeast { j | k ≤ (next c a tail).held f j } (i + 1) := by
  constructor
  · have hmem := hi.1
    simp only [Set.mem_ofPred_eq, held_next_succ] at hmem ⊢
    omega
  · rintro (_ | j) hj
    · exact absurd hj (by simp only [Set.mem_ofPred_eq, held_zero]; omega)
    · refine Nat.succ_le_succ (hi.2 ?_)
      simp only [Set.mem_ofPred_eq, held_next_succ] at hj ⊢
      omega

/-- The calls for `k` alternatives of a concatenation: the branches before the last one that is
needed are drained, and of that one only what is missing is pulled. -/
theorem calls_pull_bind (f : Alternative α → Opening β) {k : ℕ} {s : Alternatives α} (hk : 1 ≤ k)
    (h : k ≤ (bind f s).toList.length) :
    ∃ i c a, IsLeast { j | k ≤ s.held f j } (i + 1) ∧ s.steps[i]? = some (c, a) ∧
      (pull k fun _ => bind f s).calls =
        ((s.steps.take i).flatMap fun step => step.1 ++ (f step.2).drain) ++
          (c ++ ((f a).pull (k - s.held f i)).calls) := by
  induction s generalizing k with
  | exhausted c => exact absurd (hk.trans h) (Nat.not_succ_le_zero 0)
  | cutOff c => exact absurd (hk.trans h) (Nat.not_succ_le_zero 0)
  | next c a tail ih =>
      obtain ⟨k, rfl⟩ := Nat.exists_eq_succ_of_ne_zero (Nat.ne_of_gt hk)
      rw [bind_next, toList_after] at h
      rw [bind_next, calls_pull_after]
      rcases Nat.lt_or_ge ((f a).alternatives ()).toList.length (k + 1) with hlt | hle
      -- The first branch is too short: it is drained, and the others have to bring what is missing.
      · have hends := ends_of_length_lt (hlt.trans_le h)
        have hrest : k + 1 ≤ ((f a).alternatives ()).toList.length +
            (bind f (tail ())).toList.length := by
          rwa [toList_append _ hends, List.length_append] at h
        obtain ⟨i, c', a', hi, hstep, hcalls⟩ :=
          ih () (k := k + 1 - ((f a).alternatives ()).toList.length) (by omega) (by omega)
        refine ⟨i + 1, c', a', isLeast_held_succ hlt hi, hstep, ?_⟩
        rw [calls_pull_append_of_lt _ hends hlt, held_next_succ, ← Nat.sub_sub]
        simp only [Opening.pull, List.nil_append, hcalls, steps, List.take_succ_cons,
          List.flatMap_cons, Opening.drain, List.append_assoc]
      -- The first branch holds enough, so nothing beyond it is pulled.
      · refine ⟨0, c, a, isLeast_held_one hk hle, rfl, ?_⟩
        rw [pull_append_of_le _ hle]
        simp [held_zero, Opening.pull]

end Alternatives

namespace Parser

variable {α β : Type}

/-- Exactly the demanded work is done. To pull `k` alternatives of `p.bind f`, let `i + 1` be the
least number of alternatives of `p` whose branches hold `k` alternatives together: `p` is opened;
each of its first `i` alternatives is pulled, its branch opened and drained; its next alternative
is pulled, and of its branch no more than the alternatives that are missing. To pull `k`
alternatives of `p.or q`, when `p` holds as many, nothing is called but what `p` calls. -/
theorem calls_on_demand (p q : Parser α) (f : α → Parser β) (t : Text) :
    (∀ k, 1 ≤ k → k ≤ ((p.bind f t).alternatives ()).toList.length →
      ∃ i c a,
        IsLeast { j | k ≤ ((p t).alternatives ()).held (fun a => f a.value a.rest) j } (i + 1) ∧
        ((p t).alternatives ()).steps[i]? = some (c, a) ∧
        ((p.bind f t).pull k).calls =
          (p t).calls ++
            ((((p t).alternatives ()).steps.take i).flatMap fun step =>
              step.1 ++ (f step.2.value step.2.rest).drain) ++
            c ++
            ((f a.value a.rest).pull
              (k - ((p t).alternatives ()).held (fun a => f a.value a.rest) i)).calls) ∧
    ∀ k ≤ ((p t).alternatives ()).toList.length,
      ((p.or q t).pull k).calls = ((p t).pull k).calls := by
  constructor
  · intro k hk h
    obtain ⟨i, c, a, hleast, hstep, hcalls⟩ := Alternatives.calls_pull_bind _ hk h
    refine ⟨i, c, a, hleast, hstep, ?_⟩
    rw [List.append_assoc, List.append_assoc, ← hcalls]
    rfl
  · intro k h
    exact congrArg (fun pulled => (p t).calls ++ pulled.calls)
      (Alternatives.pull_append_of_le (fun _ => q t) h)

/-- The first branch holds one alternative, so the second alternative needs two branches. -/
theorem calls_on_demand_two :
    let p : Parser Text := (literal ['a']).or ((literal []).probe "none")
    let f : Text → Parser Text := fun _ => (literal ['a']).probe "then"
    let t : Text := ['a', 'a']
    2 ≤ ((p.bind f t).alternatives ()).toList.length ∧
      (∃ i c a,
        IsLeast { j | 2 ≤ ((p t).alternatives ()).held (fun a => f a.value a.rest) j } (i + 1) ∧
        ((p t).alternatives ()).steps[i]? = some (c, a) ∧
        ((p.bind f t).pull 2).calls =
          (p t).calls ++
            ((((p t).alternatives ()).steps.take i).flatMap fun step =>
              step.1 ++ (f step.2.value step.2.rest).drain) ++
            c ++
            ((f a.value a.rest).pull
              (2 - ((p t).alternatives ()).held (fun a => f a.value a.rest) i)).calls) ∧
      ((p.bind f t).pull 2).calls = [⟨"then", ['a']⟩, ⟨"none", t⟩, ⟨"then", t⟩] := by
  intro p f t
  have hlength : 2 ≤ ((p.bind f t).alternatives ()).toList.length := by decide
  exact ⟨hlength, (calls_on_demand p p f t).1 2 (by decide) hlength, rfl⟩

end Parser

end Backtrack
