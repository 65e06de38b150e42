import Backtrack.Proofs.Laws
import Backtrack.Proofs.Repetition
import Mathlib.Data.List.Infix

/-!
Unfolding of repetition. A repetition counts its iterations from the start, and compares the count
with its bounds. Only what is left of the bounds matters: after some iterations it goes on like a
repetition that starts there under lowered bounds. So a repetition of a parser that always takes
something is a choice between one more iteration, followed by the repetition under bounds lowered
by one, and the end of the run; and under bounds that admit one count only it is a sequence.

As in the laws of sequencing, all of these are equations between sequences that record their calls.
-/

namespace Backtrack

namespace Alternatives

variable {α β γ : Type}

theorem map_append (f : α → β) (later : Unit → Opening α) (s : Alternatives α) :
    map f (append later s) = append (fun _ => (later ()).map f) (map f s) := by
  induction s with
  | exhausted c => rw [append_exhausted, map_after, map, append_exhausted]; rfl
  | cutOff c => rfl
  | next c a tail ih => simp only [append_next, map, ih ()]

theorem map_bind (g : β → γ) (f : Alternative α → Opening β) (s : Alternatives α) :
    map g (bind f s) = bind (fun a => (f a).map g) s := by
  induction s with
  | exhausted c => rfl
  | cutOff c => rfl
  | next c a tail ih =>
      rw [bind_next, bind_next, map_after, map_append, ← ih ()]
      rfl

theorem map_map (g : β → γ) (f : α → β) (s : Alternatives α) :
    map g (map f s) = map (fun v => g (f v)) s := by
  induction s with
  | exhausted c => rfl
  | cutOff c => rfl
  | next c a tail ih => simp only [map, ih (), Alternative.map]

end Alternatives

namespace Endpoint

def through : Option UInt64 → Endpoint
  | none => .unbounded
  | some last => .included last

end Endpoint

namespace Bounds

def after (b : Bounds) (n : ℕ) : Bounds := ⟨b.min - n, b.max.map (· - n)⟩

theorem min_after_le_iff (b : Bounds) (n count : ℕ) :
    (b.after n).min ≤ count ↔ b.min ≤ count + n :=
  Nat.sub_le_iff_le_add

theorem any_max_after (b : Bounds) (n count : ℕ) :
    (b.after n).max.any (· ≤ count) = b.max.any (· ≤ count + n) := by
  cases hmax : b.max with
  | none => simp [after, hmax]
  | some m => simp [after, hmax]

theorem after_one (k : ℕ) (m : Option ℕ) :
    (⟨k, m.map (· + 1)⟩ : Bounds).after 1 = ⟨k - 1, m⟩ := by
  cases m <;> rfl

theorem toNat_add_one {n : UInt64} (h : n.toNat < maxCount) : (n + 1).toNat = n.toNat + 1 := by
  have hsize : n.toNat + 1 < 2 ^ 64 := Nat.add_lt_of_lt_sub h
  rw [UInt64.toNat_add]
  exact Nat.mod_eq_of_lt hsize

theorem ofRange_through {first : UInt64} {last : Option UInt64}
    (h : ∀ m ∈ last, first ≤ m ∧ m.toNat < maxCount) :
    ofRange (.included first) (.through last) = .ok ⟨first.toNat, last.map UInt64.toNat⟩ := by
  cases last with
  | none => rfl
  | some m => exact ofRange_included (h m rfl).1 (h m rfl).2

theorem ofRange_through_add_one {first : UInt64} {last : Option UInt64}
    (h : ∀ m ∈ last, first.toNat ≤ m.toNat + 1 ∧ m.toNat + 1 < maxCount) :
    ofRange (.included first) (.through (last.map (· + 1))) =
      .ok ⟨first.toNat, (last.map UInt64.toNat).map (· + 1)⟩ := by
  cases last with
  | none => rfl
  | some m =>
      obtain ⟨hle, hlt⟩ := h m rfl
      have hm : (m + 1).toNat = m.toNat + 1 := toNat_add_one (Nat.lt_of_succ_lt hlt)
      rw [Option.map_some, ofRange_through]
      · simp [hm]
      · rintro _ ⟨⟩
        rw [UInt64.le_iff_toNat_le, hm]
        exact ⟨hle, hlt⟩

end Bounds

namespace Parser

variable {α : Type} {p : Parser α} {t u : Text}

/-- On every end of the text `t`, what an alternative of `p` leaves over is an end of the text that
`p` was started on, and not all of it. -/
def Advances (p : Parser α) (t : Text) : Prop :=
  ∀ u, u <:+ t → ∀ a ∈ ((p u).alternatives ()).toList, a.rest <:+ u ∧ a.rest ≠ u

instance (p : Parser α) (t : Text) : Decidable (p.Advances t) :=
  decidable_of_iff
    (∀ u ∈ t.tails, ∀ a ∈ ((p u).alternatives ()).toList, a.rest <:+ u ∧ a.rest ≠ u)
    (by simp only [Advances, List.mem_tails])

theorem Advances.of_suffix (h : p.Advances t) (hu : u <:+ t) : p.Advances u :=
  fun v hv => h v (hv.trans hu)

theorem Advances.rest (h : p.Advances t) {a : Alternative α}
    (ha : a ∈ ((p t).alternatives ()).toList) : p.Advances a.rest :=
  h.of_suffix (h t List.suffix_rfl a ha).1

theorem Advances.length_lt (h : p.Advances t) {a : Alternative α}
    (ha : a ∈ ((p t).alternatives ()).toList) : a.rest.length < t.length := by
  obtain ⟨hsuffix, hne⟩ := h t List.suffix_rfl a ha
  exact lt_of_le_of_ne hsuffix.length_le fun hlength => hne (hsuffix.eq_of_length hlength)

/-- A watcher who lets every call pass changes nothing. -/
theorem watchedFrom_pass (p : Parser α) (b : Bounds) (count : ℕ) (t : Text) :
    watchedFrom (fun _ _ runs => runs) p b count t = p.repeatFrom b count t := by
  induction hlength : t.length using Nat.strong_induction_on generalizing count t with
  | _ k ih =>
      unfold watchedFrom repeatFrom
      dsimp only
      congr 4
      funext a
      split
      · rename_i hlt
        rw [ih _ (hlength ▸ hlt) (count + 1) a.rest rfl]
      · rfl

/-- Only what is left of the bounds matters: every call on the way is the one under these bounds,
with the counter raised. -/
theorem watchedFrom_add (watch : ℕ → Text → Opening (List α) → Opening (List α)) (p : Parser α)
    (b : Bounds) (count n : ℕ) (t : Text) :
    watchedFrom watch p b (count + n) t =
      watchedFrom (fun k => watch (k + n)) p (b.after n) count t := by
  induction hlength : t.length using Nat.strong_induction_on generalizing count t with
  | _ k ih =>
      have hmin : ∀ c, b.min ≤ c + n ↔ (b.after n).min ≤ c := fun c =>
        (b.min_after_le_iff n c).symm
      unfold watchedFrom
      simp only [b.any_max_after, Nat.add_right_comm count n 1, hmin]
      -- Both sides stop alike, so only the branches are left, on shorter texts.
      congr 4
      funext a
      split
      · rename_i hlt
        rw [ih _ (hlength ▸ hlt) (count + 1) a.rest rfl]
      · rfl

theorem repeatFrom_add (p : Parser α) (b : Bounds) (count n : ℕ) (t : Text) :
    p.repeatFrom b (count + n) t = p.repeatFrom (b.after n) count t := by
  rw [← watchedFrom_pass, watchedFrom_add, watchedFrom_pass]

def stop (b : Bounds) : Parser (List α) := if b.min = 0 then succeed [] else fail

theorem stop_of_min_eq_zero {b : Bounds} (h : b.min = 0) :
    (stop b : Parser (List α)) = succeed [] := if_pos h

theorem stop_of_min_ne_zero {b : Bounds} (h : b.min ≠ 0) : (stop b : Parser (List α)) = fail :=
  if_neg h

theorem stop_apply (b : Bounds) (t : Text) :
    (stop b : Parser (List α)) t = if b.min ≤ 0 then .single [] t else .empty := by
  simp only [stop, Nat.le_zero]
  split <;> rfl

/-- Where no iteration is admitted the parser is not started. -/
theorem repeated_of_max_eq_zero {b : Bounds} (hmax : b.max = some 0) (t : Text) :
    p.repeated b t = stop b t := by
  rw [repeated, repeatFrom, stop_apply, hmax]
  exact if_pos rfl

/-- **One step of a repetition.** One more iteration, followed by the repetition under what is left
of the bounds, is tried before the end of the run. -/
theorem repeated_eq_or {b : Bounds} (hp : p.Advances t) (hmax : b.max ≠ some 0) :
    p.repeated b t =
      (((p.and (p.repeated (b.after 1))).map fun v => v.1 :: v.2).or (stop b)) t := by
  have hnone : b.max.any (· ≤ 0) = false := by
    cases h : b.max with
    | none => rfl
    | some m => simpa [h] using hmax
  have hbranches : Alternatives.bind
      (fun a => if a.rest.length < t.length then
          (p.repeatFrom b 1 a.rest).map (a.value :: ·)
        else if b.min ≤ 1 then .single [a.value] a.rest
        else .empty) ((p t).alternatives ()) =
      Alternatives.map (fun v => v.1 :: v.2) (Alternatives.bind
        (fun a => (p.repeated (b.after 1) a.rest).map (a.value, ·)) ((p t).alternatives ())) := by
    rw [Alternatives.map_bind]
    refine Alternatives.bind_congr fun a ha => ?_
    rw [if_pos (hp.length_lt ha), ← Nat.zero_add 1, repeatFrom_add]
    simp only [Opening.map, Alternatives.map_map, repeated]
  rw [repeated, repeatFrom, if_neg (Bool.eq_false_iff.mp hnone)]
  simp only [Nat.zero_add, Opening.bind, hbranches, ← stop_apply]
  rfl

theorem repeated_succ (hp : p.Advances t) (k : ℕ) (m : Option ℕ) :
    p.repeated ⟨k + 1, m.map (· + 1)⟩ t =
      ((p.and (p.repeated ⟨k, m⟩)).map fun v => v.1 :: v.2) t := by
  have hmax : m.map (· + 1) ≠ some 0 := by cases m <;> simp
  rw [repeated_eq_or hp hmax, Bounds.after_one, stop_of_min_ne_zero (Nat.succ_ne_zero k)]
  -- Nothing comes after the longer runs, as the run may not stop here.
  simp only [or, Opening.append, fail, Alternatives.append_empty, Nat.add_sub_cancel]

theorem repeated_zero (hp : p.Advances t) (m : Option ℕ) :
    p.repeated ⟨0, m.map (· + 1)⟩ t =
      (((p.and (p.repeated ⟨0, m⟩)).map fun v => v.1 :: v.2).or (succeed [])) t := by
  have hmax : m.map (· + 1) ≠ some 0 := by cases m <;> simp
  rw [repeated_eq_or hp hmax, Bounds.after_one, stop_of_min_eq_zero rfl]

/-- **Unfolding of repetition.** Let `p` take something on every end of the text. Repetition with
both ends of the range raised by one is one more iteration followed by repetition, and repetition
from no iteration on with the last count raised by one is the choice between one more iteration,
followed by repetition, and the end of the run. Both sides give the same alternatives and make the
same calls, at the opening and at every pull. -/
theorem repeated_unfolds (hp : p.Advances t) (first : UInt64) (last : Option UInt64)
    (hfirst : first.toNat < Bounds.maxCount)
    (hlast : ∀ m ∈ last, first ≤ m ∧ m.toNat + 1 < Bounds.maxCount) :
    (∃ inner outer,
      Bounds.ofRange (.included first) (.through last) = .ok inner ∧
      Bounds.ofRange (.included (first + 1)) (.through (last.map (· + 1))) = .ok outer ∧
      p.repeated outer t = ((p.and (p.repeated inner)).map fun v => v.1 :: v.2) t) ∧
    ∃ inner outer,
      Bounds.ofRange (.included 0) (.through last) = .ok inner ∧
      Bounds.ofRange (.included 0) (.through (last.map (· + 1))) = .ok outer ∧
      p.repeated outer t =
        (((p.and (p.repeated inner)).map fun v => v.1 :: v.2).or (succeed [])) t := by
  have hlt : ∀ m ∈ last, m.toNat < Bounds.maxCount := fun m hm => Nat.lt_of_succ_lt (hlast m hm).2
  have hsucc : (first + 1).toNat = first.toNat + 1 := Bounds.toNat_add_one hfirst
  constructor
  · refine ⟨_, _, Bounds.ofRange_through fun m hm => ⟨(hlast m hm).1, hlt m hm⟩,
      Bounds.ofRange_through_add_one fun m hm => ⟨?_, (hlast m hm).2⟩, ?_⟩
    · rw [hsucc]
      exact Nat.succ_le_succ (hlast m hm).1
    · rw [hsucc]
      exact repeated_succ hp first.toNat (last.map UInt64.toNat)
  · refine ⟨_, _, Bounds.ofRange_through fun m hm => ⟨UInt64.zero_le, hlt m hm⟩,
      Bounds.ofRange_through_add_one fun m hm => ⟨Nat.zero_le _, (hlast m hm).2⟩, ?_⟩
    exact repeated_zero hp (last.map UInt64.toNat)

/-- Two or three iterations of two widths, as one iteration followed by one or two. The first run
has two iterations, and a third one is tried in vain. -/
theorem repeated_unfolds_widths :
    let p : Parser Text := ((literal ['a', 'a']).or (literal ['a'])).probe "p"
    let t : Text := ['a', 'a', 'a']
    p.Advances t ∧ (1 : UInt64).toNat < Bounds.maxCount ∧
      (∀ m ∈ some (2 : UInt64), 1 ≤ m ∧ m.toNat + 1 < Bounds.maxCount) ∧
      (∃ inner outer,
        Bounds.ofRange (.included 1) (.included 2) = .ok inner ∧
        Bounds.ofRange (.included 2) (.included 3) = .ok outer ∧
        p.repeated outer t = ((p.and (p.repeated inner)).map fun v => v.1 :: v.2) t) ∧
      ((p.repeated ⟨2, some 3⟩ t).pull 1).calls = [⟨"p", t⟩, ⟨"p", ['a']⟩, ⟨"p", []⟩] := by
  intro p t
  have hp : p.Advances t := by decide
  have hfirst : (1 : UInt64).toNat < Bounds.maxCount := by decide
  have hlast : ∀ m ∈ some (2 : UInt64), 1 ≤ m ∧ m.toNat + 1 < Bounds.maxCount := by
    rintro m ⟨⟩
    exact ⟨by decide, by decide⟩
  exact ⟨hp, hfirst, hlast, (repeated_unfolds hp 1 (some 2) hfirst hlast).1, by decide +kernel⟩

/-! ### Repetition under bounds that admit one count -/

/-- Of the second parser only what it does on the rests of the first one matters. -/
theorem and_congr {β : Type} {q q' : Parser β}
    (h : ∀ a ∈ ((p t).alternatives ()).toList, q a.rest = q' a.rest) :
    p.and q t = p.and q' t := by
  have hbind : Alternatives.bind (fun a => (q a.rest).map (a.value, ·)) ((p t).alternatives ()) =
      Alternatives.bind (fun a => (q' a.rest).map (a.value, ·)) ((p t).alternatives ()) :=
    Alternatives.bind_congr fun a ha => by rw [h a ha]
  simp only [and, Opening.bind, hbind]

theorem sequence_cons (ps : List (Parser α)) :
    sequence (p :: ps) t = ((p.and (sequence ps)).map fun v => v.1 :: v.2) t := by
  simp only [sequence, map, and, Opening.map, Opening.bind, Alternatives.map_bind,
    Alternatives.map_map]

theorem repeated_eq_sequence (hp : p.Advances t) (n : ℕ) :
    p.repeated ⟨n, some n⟩ t = sequence (List.replicate n p) t := by
  induction n generalizing t with
  | zero =>
      rw [repeated_of_max_eq_zero rfl, stop_of_min_eq_zero rfl]
      rfl
  | succ n ih =>
      have hrest : p.and (p.repeated ⟨n, some n⟩) t = p.and (sequence (List.replicate n p)) t :=
        and_congr fun a ha => ih (hp.rest ha)
      calc
        p.repeated ⟨n + 1, some (n + 1)⟩ t =
            (p.and (p.repeated ⟨n, some n⟩) t).map fun v => v.1 :: v.2 :=
          repeated_succ hp n (some n)
        _ = (p.and (sequence (List.replicate n p)) t).map fun v => v.1 :: v.2 := by rw [hrest]
        _ = sequence (List.replicate (n + 1) p) t := (sequence_cons _).symm

/-- **Exact repetition is a sequence of copies.** Let `p` take something on every end of the text.
The range from `n` to `n` is accepted, and under its bounds the repetition of `p` gives the same
alternatives and makes the same calls, at the opening and at every pull, as `n` copies of `p` in a
row; with a label on `p` these are the texts that `p` itself is called on. For no iteration at all
nothing is ever called. -/
theorem exact_repetition (hp : p.Advances t) (n : UInt64) (hn : n.toNat < Bounds.maxCount) :
    ∃ b, Bounds.ofRange (.included n) (.included n) = .ok b ∧
      p.repeated b t = sequence (List.replicate n.toNat p) t ∧
      (n = 0 → ∀ k, ((p.repeated b t).pull k).calls = []) := by
  refine ⟨_, Bounds.ofRange_included UInt64.le_rfl hn, repeated_eq_sequence hp n.toNat, ?_⟩
  rintro rfl k
  rw [repeated_eq_sequence hp]
  rcases k with _ | _ | k <;> rfl

/-- Two iterations of two widths. The second alternative goes back on the first iteration. -/
theorem exact_repetition_two :
    let p : Parser Text := ((literal ['a', 'a']).or (literal ['a'])).probe "p"
    let t : Text := ['a', 'a', 'a']
    p.Advances t ∧ (2 : UInt64).toNat < Bounds.maxCount ∧
      (∃ b, Bounds.ofRange (.included 2) (.included 2) = .ok b ∧
        p.repeated b t = sequence [p, p] t ∧
        ((2 : UInt64) = 0 → ∀ k, ((p.repeated b t).pull k).calls = [])) ∧
      ((sequence [p, p] t).pull 2).alternatives =
        [⟨[['a', 'a'], ['a']], []⟩, ⟨[['a'], ['a', 'a']], []⟩] ∧
      ((sequence [p, p] t).pull 2).calls = [⟨"p", t⟩, ⟨"p", ['a']⟩, ⟨"p", ['a', 'a']⟩] := by
  intro p t
  have hp : p.Advances t := by decide
  have hn : (2 : UInt64).toNat < Bounds.maxCount := by decide
  exact ⟨hp, hn, exact_repetition hp 2 hn, by decide, by decide⟩

end Parser

end Backtrack
