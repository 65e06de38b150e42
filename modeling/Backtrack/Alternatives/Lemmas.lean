import Backtrack.Alternatives.Basic

/-!
One equation per operation on sequences of alternatives and per outcome of a pull. Earlier calls
are passed on to the first pull by every operation, and `bind` takes one alternative at a time.
Read as lists, sequences are mapped, appended and flattened as lists are, unless they are cut off.
-/

namespace Backtrack.Alternatives

variable {α β : Type}

@[simp] theorem after_exhausted (c d : List Call) :
    (exhausted d : Alternatives α).after c = exhausted (c ++ d) := rfl

@[simp] theorem after_cutOff (c d : List Call) :
    (cutOff d : Alternatives α).after c = cutOff (c ++ d) := rfl

@[simp] theorem after_next (c d : List Call) (a : Alternative α) (tail : Unit → Alternatives α) :
    (next d a tail).after c = next (c ++ d) a tail := rfl

@[simp] theorem after_nil (s : Alternatives α) : s.after [] = s := by
  cases s <;> rfl

@[simp] theorem after_after (c d : List Call) (s : Alternatives α) :
    (s.after d).after c = s.after (c ++ d) := by
  cases s <;> simp

@[simp] theorem append_exhausted (later : Unit → Opening α) (c : List Call) :
    append later (exhausted c) = ((later ()).alternatives ()).after (c ++ (later ()).calls) := rfl

@[simp] theorem append_cutOff (later : Unit → Opening α) (c : List Call) :
    append later (cutOff c) = cutOff c := rfl

@[simp] theorem append_next (later : Unit → Opening α) (c : List Call) (a : Alternative α)
    (tail : Unit → Alternatives α) :
    append later (next c a tail) = next c a fun _ => append later (tail ()) := rfl

@[simp] theorem bind_exhausted (f : Alternative α → Opening β) (c : List Call) :
    bind f (exhausted c) = exhausted c := rfl

@[simp] theorem bind_cutOff (f : Alternative α → Opening β) (c : List Call) :
    bind f (cutOff c) = cutOff c := rfl

theorem bindAfter_eq (f : Alternative α → Opening β) (c : List Call) (s : Alternatives α) :
    bindAfter f c s = (bind f s).after c := by
  induction s generalizing c with
  | exhausted => rfl
  | cutOff => rfl
  | next calls a tail ih =>
    simp only [bind, bindAfter]
    split <;> simp [ih ()]

/-- One step of `bind`: the first branch, then the branches of the other alternatives. -/
theorem bind_next (f : Alternative α → Opening β) (c : List Call) (a : Alternative α)
    (tail : Unit → Alternatives α) :
    bind f (next c a tail) =
      (append (fun _ => ⟨[], fun _ => bind f (tail ())⟩) ((f a).alternatives ())).after
        (c ++ (f a).calls) := by
  rw [bind, bindAfter]
  cases (f a).alternatives () <;> simp [bindAfter_eq]

theorem map_after (f : α → β) (c : List Call) (s : Alternatives α) :
    map f (s.after c) = (map f s).after c := by
  cases s <;> rfl

theorem append_after (later : Unit → Opening α) (c : List Call) (s : Alternatives α) :
    append later (s.after c) = (append later s).after c := by
  cases s <;> simp

theorem bind_after (f : Alternative α → Opening β) (c : List Call) (s : Alternatives α) :
    bind f (s.after c) = (bind f s).after c := by
  cases s with
  | exhausted => rfl
  | cutOff => rfl
  | next d a tail => simp only [after_next, bind_next, after_after, List.append_assoc]

@[simp] theorem toList_after (c : List Call) (s : Alternatives α) :
    (s.after c).toList = s.toList := by
  cases s <;> rfl

@[simp] theorem ends_after (c : List Call) (s : Alternatives α) : (s.after c).ends = s.ends := by
  cases s <;> rfl

theorem toList_map (f : α → β) (s : Alternatives α) :
    (map f s).toList = s.toList.map (Alternative.map f) := by
  induction s with
  | exhausted => rfl
  | cutOff => rfl
  | next calls a tail ih => simp [map, toList, ih ()]

theorem ends_map (f : α → β) (s : Alternatives α) : (map f s).ends = s.ends := by
  induction s with
  | exhausted => rfl
  | cutOff => rfl
  | next calls a tail ih => exact ih ()

theorem toList_append (later : Unit → Opening α) {s : Alternatives α} (h : s.ends) :
    (append later s).toList = s.toList ++ ((later ()).alternatives ()).toList := by
  induction s with
  | exhausted => simp [toList]
  | cutOff => cases h
  | next calls a tail ih =>
    rw [append_next, toList, toList, ih () h]
    rfl

theorem ends_append (later : Unit → Opening α) (s : Alternatives α) :
    (append later s).ends = (s.ends && ((later ()).alternatives ()).ends) := by
  induction s with
  | exhausted => simp [ends]
  | cutOff => rfl
  | next calls a tail ih => exact ih ()

theorem ends_bind (f : Alternative α → Opening β) (s : Alternatives α) :
    (bind f s).ends = (s.ends && s.toList.all fun a => ((f a).alternatives ()).ends) := by
  induction s with
  | exhausted => rfl
  | cutOff => rfl
  | next calls a tail ih =>
    rw [bind_next, ends_after, ends_append, ih ()]
    simp [toList, ends, Bool.and_left_comm]

/-- A number of pulls brings that many alternatives from the front. -/
theorem alternatives_pull (k : Nat) (s : Unit → Alternatives α) :
    (pull k s).alternatives = (s ()).toList.take k := by
  induction k generalizing s with
  | zero => simp [pull]
  | succ k ih =>
    rw [pull]
    cases s () with
    | exhausted => rfl
    | cutOff => rfl
    | next calls a tail => simp [toList, ih tail]

theorem collect_eq (earlier : List (Alternative α)) (s : Alternatives α) :
    s.collect earlier = earlier.reverse ++ s.toList := by
  induction s generalizing earlier with
  | exhausted => simp [collect, toList]
  | cutOff => simp [collect, toList]
  | next calls a tail ih => simp [collect, toList, ih ()]

end Backtrack.Alternatives
