import Backtrack.Proofs.Eager

/-!
What an alternative leaves over is an end of the text that the grammar was started on. This makes
byte counts of rests comparable: of two ends of one text the one with fewer bytes is the shorter
one.
-/

namespace Backtrack

namespace Text

variable {s t : Text}

theorem byteLength_lt_iff_of_suffix (h : s <:+ t) :
    s.byteLength < t.byteLength ↔ s.length < t.length := by
  obtain ⟨taken, rfl⟩ := h
  cases taken with
  | nil => simp
  | cons c taken =>
      have hpos := c.utf8Size_pos
      simp only [List.cons_append, byteLength_cons, byteLength_append, List.length_cons,
        List.length_append]
      constructor
      · intro _
        omega
      · intro _
        omega

end Text

namespace Listing

variable {α β : Type} {l m : Listing α} {t u : Text}

def LeavesEndOf (l : Listing α) (t : Text) : Prop := ∀ a ∈ l.items, a.rest <:+ t

theorem leavesEndOf_empty : (empty : Listing α).LeavesEndOf t :=
  fun _ h => absurd h List.not_mem_nil

theorem leavesEndOf_bot : (⊥ : Listing α).LeavesEndOf t :=
  fun _ h => absurd h List.not_mem_nil

theorem leavesEndOf_single (v : α) (h : u <:+ t) : (single v u).LeavesEndOf t := by
  intro a ha
  rw [List.mem_singleton.mp ha]
  exact h

theorem LeavesEndOf.map (h : l.LeavesEndOf t) (f : α → β) : (l.map f).LeavesEndOf t := by
  intro b hb
  obtain ⟨a, ha, rfl⟩ := List.mem_map.mp hb
  exact h a ha

theorem LeavesEndOf.append (hl : l.LeavesEndOf t) (hm : m.LeavesEndOf t) :
    (l.append m).LeavesEndOf t := by
  intro a ha
  rcases mem_append ha with ha | ha
  · exact hl a ha
  · exact hm a ha

theorem LeavesEndOf.flatMap {f : Alternative α → Listing β} (hl : l.LeavesEndOf t)
    (hf : ∀ a, (f a).LeavesEndOf a.rest) : (l.flatMap f).LeavesEndOf t := by
  intro b hb
  obtain ⟨a, ha, hb⟩ := mem_flatMap hb
  exact (hf a b hb).trans (hl a ha)

/-- A run that may stop ends where it is. -/
theorem leavesEndOf_stop (b : Bounds) (count : ℕ) (values : List α) (h : u <:+ t) :
    (if b.min ≤ count then single values u else .empty).LeavesEndOf t := by
  split
  · exact leavesEndOf_single values h
  · exact leavesEndOf_empty

/-- What follows an iteration with the alternative `a`, when this holds of the longer runs. -/
theorem leavesEndOf_tail (b : Bounds) (count : ℕ) {a : Alternative α} {longer : Listing (List α)}
    (hlonger : a.rest.length < t.length → longer.LeavesEndOf a.rest) :
    (if a.rest.length < t.length then longer.map (a.value :: ·)
      else if b.min ≤ count then single [a.value] a.rest else .empty).LeavesEndOf a.rest := by
  split
  · rename_i hlt
    exact (hlonger hlt).map _
  · exact leavesEndOf_stop b count [a.value] (List.suffix_refl a.rest)

theorem leavesEndOf_repeatFrom {p : Text → Listing α} (h : ∀ t, (p t).LeavesEndOf t) (b : Bounds)
    (count : ℕ) (t : Text) : (repeatFrom p b count t).LeavesEndOf t := by
  induction hn : t.length using Nat.strong_induction_on generalizing count t with
  | _ n ih =>
      have hstop := leavesEndOf_stop b count ([] : List α) (List.suffix_refl t)
      unfold repeatFrom
      dsimp only
      split
      · exact hstop
      · refine ((h t).flatMap fun a => ?_).append hstop
        exact leavesEndOf_tail b (count + 1) fun hlt => ih _ (hn ▸ hlt) (count + 1) a.rest rfl

end Listing

namespace Grammar

variable {lists : String → Text → Listing Value}

theorem leavesEndOf_choice {ps : List Grammar} {t : Text}
    (h : ∀ p ∈ ps, (p.eager lists t).LeavesEndOf t) :
    (eager.eagerChoice lists ps t).LeavesEndOf t := by
  induction ps with
  | nil => exact Listing.leavesEndOf_empty
  | cons p ps ih =>
      exact (h p List.mem_cons_self).append (ih fun q hq => h q (List.mem_cons_of_mem p hq))

theorem leavesEndOf_sequence {ps : List Grammar}
    (h : ∀ p ∈ ps, ∀ t, (p.eager lists t).LeavesEndOf t) (t : Text) :
    (eager.eagerSequence lists ps t).LeavesEndOf t := by
  induction ps generalizing t with
  | nil => exact Listing.leavesEndOf_single _ List.suffix_rfl
  | cons p ps ih =>
      refine (h p List.mem_cons_self t).flatMap fun a => ?_
      exact (ih (fun q hq => h q (List.mem_cons_of_mem p hq)) a.rest).map _

theorem leavesEndOf_eager (h : ∀ name t, (lists name t).LeavesEndOf t) (g : Grammar) (t : Text) :
    (g.eager lists t).LeavesEndOf t := by
  induction g generalizing t with
  | any =>
      cases t with
      | nil => exact Listing.leavesEndOf_empty
      | cons c t => exact Listing.leavesEndOf_single _ (List.suffix_cons c t)
  | satisfy accepts =>
      cases t with
      | nil => exact Listing.leavesEndOf_empty
      | cons c t =>
          unfold eager
          split
          · exact Listing.leavesEndOf_single _ (List.suffix_cons c t)
          · exact Listing.leavesEndOf_empty
  | literal s =>
      unfold eager
      split
      · exact Listing.leavesEndOf_single _ (List.drop_suffix s.length t)
      · exact Listing.leavesEndOf_empty
  | succeed v => exact Listing.leavesEndOf_single v List.suffix_rfl
  | fail => exact Listing.leavesEndOf_empty
  | endOfInput =>
      unfold eager
      split
      · exact Listing.leavesEndOf_single _ List.suffix_rfl
      · exact Listing.leavesEndOf_empty
  | bind p f ihp ihf => exact (ihp t).flatMap fun a => ihf a.value a.rest
  | and p q ihp ihq => exact (ihp t).flatMap fun a => (ihq a.rest).map _
  | or p q ihp ihq => exact (ihp t).append (ihq t)
  | choice ps ih => exact leavesEndOf_choice fun p hp => ih p hp t
  | sequence ps ih => exact (leavesEndOf_sequence ih t).map _
  | map p f ih => exact (ih t).map f
  | repeated p b ih => exact (Listing.leavesEndOf_repeatFrom ih b 0 t).map _
  | optional p ih => exact ((ih t).map _).append (Listing.leavesEndOf_single _ List.suffix_rfl)
  | delayed p ih => exact ih t
  | rule name => exact h name t
  | probe label p ih => exact ih t

end Grammar

theorem Rules.leavesEndOf_eager (rules : Rules) (budget : ℕ) (name : String) (t : Text) :
    (rules.eager budget name t).LeavesEndOf t := by
  induction budget generalizing name t with
  | zero => exact Listing.leavesEndOf_bot
  | succ budget ih => exact Grammar.leavesEndOf_eager ih (rules.get name) t

end Backtrack
