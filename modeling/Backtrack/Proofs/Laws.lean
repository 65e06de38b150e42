import Backtrack.Proofs.Demand

/-!
The laws of sequencing and choice. They are equations between sequences that record their calls,
so both sides do the same work when they are opened and at every pull. Only a value that is given
at once and then continued with differs from its continuation, which is opened by the first pull
and not before.
-/

namespace Backtrack

namespace Alternatives

variable {α β γ : Type}

theorem append_empty (s : Alternatives α) : append (fun _ => .empty) s = s := by
  induction s with
  | exhausted c => simp [Opening.empty]
  | cutOff c => rfl
  | next c a tail ih => simp only [append_next, ih ()]

theorem append_append (s : Alternatives α) (middle later : Unit → Opening α) :
    append later (append middle s) = append (fun _ => (middle ()).append later) s := by
  induction s with
  | exhausted c => simp only [append_exhausted, append_after, Opening.append]
  | cutOff c => rfl
  | next c a tail ih => simp only [append_next, ih ()]

/-- The branches of what follows come after all branches of what comes first. -/
theorem bind_append (f : Alternative α → Opening β) (s : Alternatives α)
    (later : Unit → Opening α) :
    bind f (append later s) = append (fun _ => (later ()).bind f) (bind f s) := by
  induction s with
  | exhausted c => simp only [append_exhausted, bind_exhausted, bind_after, Opening.bind]
  | cutOff c => rfl
  | next c a tail ih =>
      rw [append_next, bind_next, bind_next, append_after, append_append, ih ()]
      rfl

/-- Branches of branches are reached one by one, in the same order and at the same pulls. -/
theorem bind_bind (f : Alternative α → Opening β) (g : Alternative β → Opening γ)
    (s : Alternatives α) : bind g (bind f s) = bind (fun a => (f a).bind g) s := by
  induction s with
  | exhausted c => rfl
  | cutOff c => rfl
  | next c a tail ih =>
      rw [bind_next, bind_next, bind_after, bind_append, ← ih ()]
      rfl

theorem bind_single (s : Alternatives α) :
    bind (fun a => .single a.value a.rest) s = s := by
  induction s with
  | exhausted c => rfl
  | cutOff c => rfl
  | next c a tail ih =>
      rw [bind_next, ih ()]
      simp [Opening.single]

end Alternatives

namespace Parser

open Backtrack.Alternatives

variable {α β γ : Type}

/-- A value that is given at once is followed by its branch alone, which the first pull opens. -/
theorem bind_succeed (f : α → Parser β) (v : α) (t : Text) :
    (succeed v).bind f t = ⟨[], fun _ => ((f v t).alternatives ()).after (f v t).calls⟩ := by
  have hbranches : Alternatives.bind (fun a => f a.value a.rest)
      (.next [] ⟨v, t⟩ fun _ => .exhausted []) =
        ((f v t).alternatives ()).after (f v t).calls := by
    rw [bind_next, List.nil_append]
    exact congrArg (after _) (append_empty _)
  exact congrArg (fun s => (⟨[], fun _ => s⟩ : Opening β)) hbranches

/-- **The laws of sequencing and choice.** Sequencing is associative; to go on with the value
itself changes nothing; what follows a choice follows each of its parts; and choice is associative.
In all of these both sides give the same alternatives and make the same calls, at the opening and
at every pull. To go on with `f` after a value that is given at once gives the alternatives of `f`
with this value, at the same pulls; the calls are the same as soon as there has been a pull. -/
theorem sequencing_laws (p q r : Parser α) (f : α → Parser β) (g : β → Parser γ) (v : α)
    (t : Text) :
    (p.bind f).bind g t = p.bind (fun v => (f v).bind g) t ∧
    p.bind succeed t = p t ∧
    (p.or q).bind f t = (p.bind f).or (q.bind f) t ∧
    (p.or q).or r t = p.or (q.or r) t ∧
    (((succeed v).bind f t).alternatives ()).listing = ((f v t).alternatives ()).listing ∧
    ∀ k, ((succeed v).bind f t).pull (k + 1) = (f v t).pull (k + 1) := by
  refine ⟨?_, ?_, ?_, ?_, ?_, fun k => ?_⟩
  · simp only [bind, Opening.bind, bind_bind]
  · simp only [bind, Opening.bind, succeed, bind_single]
  · simp only [bind, or, Opening.bind, Opening.append, bind_append]
  · simp only [or, Opening.append, append_append]
  · rw [bind_succeed, listing_after]
  · rw [bind_succeed, Opening.pull, Opening.pull, pull_after, List.nil_append]

end Parser

end Backtrack
