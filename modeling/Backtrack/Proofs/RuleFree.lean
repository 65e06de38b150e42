import Backtrack.Proofs.References

/-!
Grammars without rules. Nothing can cut them off, so on every text such a grammar has a finite
list of alternatives, and the forms of grammars act on these lists as list append, map and
concatenation do. What is in the list is what has a derivation.
-/

namespace Backtrack

namespace Listing

variable {α β X : Type}

theorem complete_repeatFrom {p : Text → Listing α} (h : ∀ t, (p t).complete) (b : Bounds)
    (count : ℕ) (t : Text) : (repeatFrom p b count t).complete := by
  have hstop : ∀ (n : ℕ) (values : List α) (u : Text),
      (if b.min ≤ n then single values u else .empty).complete := by
    intro n values u
    split <;> rfl
  induction hn : t.length using Nat.strong_induction_on generalizing count t with
  | _ n ih =>
      unfold repeatFrom
      dsimp only
      split
      · exact hstop count [] t
      · refine complete_append.mpr ⟨complete_flatMap.mpr ⟨h t, fun a _ => ?_⟩, hstop count [] t⟩
        split
        · rename_i hlt
          exact ih _ (hn ▸ hlt) (count + 1) a.rest rfl
        · exact hstop (count + 1) [a.value] a.rest

/-- A complete listing shows exactly what it goes through. -/
theorem Enumerates.mem_iff {l : Listing α} {f : X → Alternative α} (h : l.Enumerates f)
    (hc : l.complete) {a : Alternative α} : a ∈ l.items ↔ ∃ x, f x = a := by
  refine ⟨h.exists_eq, ?_⟩
  rintro ⟨x, rfl⟩
  obtain ⟨xs, -, hle, hall⟩ := h
  rw [eq_of_le hle hc]
  exact List.mem_map_of_mem (hall hc x)

end Listing

namespace Rules

/-- No reference is followed if there are no rules. -/
theorem guarded_nil : Guarded [] := fun _ => .fail

end Rules

namespace Grammar

def alternatives (g : Grammar) (t : Text) : List (Alternative Value) :=
  ((g.under [] t).alternatives ()).toList

theorem ends_under_nil (g : Grammar) (t : Text) : ((g.under [] t).alternatives ()).ends :=
  ends_under Rules.guarded_nil g t

/-- The eager list of a grammar without rules is complete. -/
theorem eager_eq (g : Grammar) (t : Text) :
    g.eager (fun _ _ => .empty) t = ⟨g.alternatives t, true⟩ := by
  have hfail : ∀ name u, (rule name).alternativesOver [] u = [] :=
    fun name u => alternativesOver_rule Rules.guarded_nil name u
  have heager := eager_over Rules.guarded_nil g t
  simp only [hfail] at heager
  exact heager

/-- The alternatives are the derivations' values and rests. -/
theorem mem_alternatives_iff {g : Grammar} {t : Text} {a : Alternative Value} :
    a ∈ g.alternatives t ↔ Nonempty (Derivation [] g t a.value a.rest) := by
  have henum := g.enumerates_eagerWithin [] t (Rules.nestingLimit t)
  rw [← listing_within, ← under_eq_within] at henum
  have hmem : a ∈ g.alternatives t ↔ ∃ x : Reading [] g t, x.alternative = a :=
    henum.mem_iff (ends_under_nil g t)
  rw [hmem]
  constructor
  · rintro ⟨x, rfl⟩
    exact ⟨x.derivation⟩
  · rintro ⟨d⟩
    exact ⟨⟨a.value, a.rest, d⟩, rfl⟩

theorem rest_suffix {g : Grammar} {t : Text} {a : Alternative Value} (h : a ∈ g.alternatives t) :
    a.rest <:+ t :=
  g.leavesEndOf_within [] (Rules.nestingLimit t) t a h

theorem Consumes.length_rest_lt {g : Grammar} (hg : g.Consumes) {t : Text}
    {a : Alternative Value} (ha : a ∈ g.alternatives t) : a.rest.length < t.length := by
  have hless : (g.eager (fun _ _ => .empty) t).LeavesLessThan t :=
    hg.leavesLessThan_eager (fun _ _ => Listing.leavesEndOf_empty) t
  rw [eager_eq] at hless
  exact hless a ha

/-! ### One equation for each form -/

section Forms

variable {p q : Grammar} {t : Text}

theorem alternatives_eq_of_eager {g : Grammar} {as : List (Alternative Value)}
    (h : g.eager (fun _ _ => .empty) t = ⟨as, true⟩) : g.alternatives t = as := by
  rw [eager_eq] at h
  exact congrArg Listing.items h

theorem alternatives_satisfy_cons (accepts : Char → Bool) (c : Char) (t : Text) :
    (satisfy accepts).alternatives (c :: t) = if accepts c then [⟨.text [c], t⟩] else [] :=
  alternativesOver_satisfy_cons accepts c t

theorem alternatives_char_eq_nil {c : Char} (h : t.head? ≠ some c) :
    (char c).alternatives t = [] :=
  alternativesOver_char_eq_nil h

theorem alternatives_bind (f : Value → Grammar) :
    (bind p f).alternatives t =
      (p.alternatives t).flatMap fun a => (f a.value).alternatives a.rest :=
  alternativesOver_bind Rules.guarded_nil f

def filterMap (p : Grammar) (read : Value → Option Value) : Grammar :=
  bind p fun v => (read v).elim fail succeed

theorem alternatives_filterMap (read : Value → Option Value) :
    (filterMap p read).alternatives t =
      (p.alternatives t).filterMap fun a => (read a.value).map (⟨·, a.rest⟩) := by
  rw [filterMap, alternatives_bind]
  induction p.alternatives t with
  | nil => rfl
  | cons a as ih =>
      rw [List.flatMap_cons, ih, List.filterMap_cons]
      cases read a.value <;> rfl

theorem alternatives_and :
    (and p q).alternatives t =
      (p.alternatives t).flatMap fun a =>
        (q.alternatives a.rest).map (Alternative.map (.pair a.value)) :=
  alternativesOver_and Rules.guarded_nil

theorem alternatives_and_endOfInput :
    (and p endOfInput).alternatives t =
      ((p.alternatives t).filter (·.rest = [])).map (Alternative.map (.pair · .unit)) :=
  alternativesOver_and_endOfInput Rules.guarded_nil

theorem alternatives_or : (or p q).alternatives t = p.alternatives t ++ q.alternatives t :=
  alternativesOver_or Rules.guarded_nil

theorem alternatives_map (f : Value → Value) :
    (map p f).alternatives t = (p.alternatives t).map (Alternative.map f) :=
  alternativesOver_map Rules.guarded_nil f

theorem alternatives_optional :
    (optional p).alternatives t =
      (p.alternatives t).map (Alternative.map .some) ++ [⟨.none, t⟩] :=
  alternativesOver_optional Rules.guarded_nil

/-! ### Repetitions -/

def runs (p : Grammar) (b : Bounds) (count : ℕ) (t : Text) : List (Alternative (List Value)) :=
  (Listing.repeatFrom (p.eager fun _ _ => .empty) b count t).items

theorem repeatFrom_eager_eq (p : Grammar) (b : Bounds) (count : ℕ) (t : Text) :
    Listing.repeatFrom (p.eager fun _ _ => .empty) b count t = ⟨p.runs b count t, true⟩ :=
  Listing.ext rfl (Listing.complete_repeatFrom (fun u => by rw [eager_eq]) b count t)

/-- A run goes on with one more iteration, which is its last if it takes nothing, or it ends. -/
theorem runs_eq (p : Grammar) (b : Bounds) (count : ℕ) (t : Text) :
    p.runs b count t =
      if b.max.any (· ≤ count) then (if b.min ≤ count then [⟨[], t⟩] else [])
      else
        ((p.alternatives t).flatMap fun a =>
          if a.rest.length < t.length then
            (p.runs b (count + 1) a.rest).map (Alternative.map (a.value :: ·))
          else if b.min ≤ count + 1 then [⟨[a.value], a.rest⟩]
          else []) ++ if b.min ≤ count then [⟨[], t⟩] else [] := by
  have hstop : ∀ (n : ℕ) (vs : List Value) (u : Text),
      (if b.min ≤ n then Listing.single vs u else .empty) =
        ⟨if b.min ≤ n then [⟨vs, u⟩] else [], true⟩ := by
    intro n vs u
    split <;> rfl
  have hbranch : ∀ a : Alternative Value,
      (if a.rest.length < t.length then
        (Listing.repeatFrom (p.eager fun _ _ => .empty) b (count + 1) a.rest).map (a.value :: ·)
      else ⟨if b.min ≤ count + 1 then [⟨[a.value], a.rest⟩] else [], true⟩) =
        ⟨if a.rest.length < t.length then
          (p.runs b (count + 1) a.rest).map (Alternative.map (a.value :: ·))
        else if b.min ≤ count + 1 then [⟨[a.value], a.rest⟩] else [], true⟩ := by
    intro a
    rw [repeatFrom_eager_eq]
    split <;> rfl
  rw [runs]
  unfold Listing.repeatFrom
  simp only [hstop, hbranch, eager_eq, Listing.flatMap_of_complete, Listing.append_of_complete]
  split <;> rfl

theorem runs_atLeast_zero (p : Grammar) (count : ℕ) (t : Text) :
    p.runs (.atLeast 0) count t =
      ((p.alternatives t).flatMap fun a =>
        if a.rest.length < t.length then
          (p.runs (.atLeast 0) (count + 1) a.rest).map (Alternative.map (a.value :: ·))
        else [⟨[a.value], a.rest⟩]) ++ [⟨[], t⟩] := by
  rw [runs_eq]
  simp [Bounds.atLeast]

theorem alternatives_repeated (b : Bounds) :
    (repeated p b).alternatives t = (p.runs b 0 t).map (Alternative.map .list) := by
  apply alternatives_eq_of_eager
  rw [eager, repeatFrom_eager_eq]
  rfl

end Forms

end Grammar

end Backtrack
