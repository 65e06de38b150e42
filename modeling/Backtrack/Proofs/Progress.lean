import Backtrack.Proofs.Suffix

/-!
Progress. Of some grammars it can be seen from their form that they have no alternative that takes
nothing. References to rules do not count here, as nothing is known of a rule from its name.
-/

namespace Backtrack

namespace Listing

variable {α β : Type} {l m : Listing α} {t u : Text}

def LeavesLessThan (l : Listing α) (t : Text) : Prop := ∀ a ∈ l.items, a.rest.length < t.length

theorem leavesLessThan_empty : (empty : Listing α).LeavesLessThan t :=
  fun _ h => absurd h List.not_mem_nil

theorem leavesLessThan_single (v : α) (h : u.length < t.length) :
    (single v u).LeavesLessThan t := by
  intro a ha
  rw [List.mem_singleton.mp ha]
  exact h

theorem LeavesLessThan.map (h : l.LeavesLessThan t) (f : α → β) :
    (l.map f).LeavesLessThan t := by
  intro b hb
  obtain ⟨a, ha, rfl⟩ := List.mem_map.mp hb
  exact h a ha

theorem LeavesLessThan.append (hl : l.LeavesLessThan t) (hm : m.LeavesLessThan t) :
    (l.append m).LeavesLessThan t := by
  intro a ha
  rcases mem_append ha with ha | ha
  · exact hl a ha
  · exact hm a ha

theorem LeavesLessThan.flatMap {f : Alternative α → Listing β} (hl : l.LeavesLessThan t)
    (hf : ∀ a, (f a).LeavesEndOf a.rest) : (l.flatMap f).LeavesLessThan t := by
  intro b hb
  obtain ⟨a, ha, hb⟩ := mem_flatMap hb
  exact (hf a b hb).length_le.trans_lt (hl a ha)

theorem LeavesEndOf.flatMap_leavesLessThan {f : Alternative α → Listing β}
    (hl : l.LeavesEndOf t) (hf : ∀ a, (f a).LeavesLessThan a.rest) :
    (l.flatMap f).LeavesLessThan t := by
  intro b hb
  obtain ⟨a, ha, hb⟩ := mem_flatMap hb
  exact (hf a b hb).trans_le (hl a ha).length_le

/-- A run that has to go on takes what its next iteration takes. -/
theorem leavesLessThan_repeatFrom {p : Text → Listing α} (hp : ∀ t, (p t).LeavesEndOf t)
    (hless : (p t).LeavesLessThan t) {b : Bounds} {count : ℕ} (h : count < b.min) :
    (repeatFrom p b count t).LeavesLessThan t := by
  have hstop : (if b.min ≤ count then single [] t else .empty : Listing (List α)) = .empty :=
    if_neg (Nat.not_le.mpr h)
  unfold repeatFrom
  dsimp only
  rw [hstop]
  split
  · exact leavesLessThan_empty
  · refine (hless.flatMap fun a => ?_).append leavesLessThan_empty
    exact leavesEndOf_tail b (count + 1) fun _ =>
      leavesEndOf_repeatFrom hp b (count + 1) a.rest

end Listing

namespace Grammar

/-- The form of the grammar excludes alternatives that take nothing. -/
inductive Consumes : Grammar → Prop
  | any : Consumes any
  | satisfy (accepts : Char → Bool) : Consumes (satisfy accepts)
  | literal {s : Text} (h : s ≠ []) : Consumes (literal s)
  | fail : Consumes fail
  | bindFirst {p : Grammar} {f : Value → Grammar} (hp : Consumes p) : Consumes (bind p f)
  | bindNext {p : Grammar} {f : Value → Grammar} (hf : ∀ v, Consumes (f v)) :
      Consumes (bind p f)
  | andFirst {p q : Grammar} (hp : Consumes p) : Consumes (and p q)
  | andSecond {p q : Grammar} (hq : Consumes q) : Consumes (and p q)
  | or {p q : Grammar} (hp : Consumes p) (hq : Consumes q) : Consumes (or p q)
  | choice {ps : List Grammar} (h : ∀ p ∈ ps, Consumes p) : Consumes (choice ps)
  | sequence {ps : List Grammar} {p : Grammar} (hmem : p ∈ ps) (hp : Consumes p) :
      Consumes (sequence ps)
  | map {p : Grammar} {f : Value → Value} (hp : Consumes p) : Consumes (map p f)
  | repeated {p : Grammar} {b : Bounds} (hp : Consumes p) (hmin : 0 < b.min) :
      Consumes (repeated p b)
  | delayed {p : Unit → Grammar} (hp : Consumes (p ())) : Consumes (delayed p)
  | probe {label : String} {p : Grammar} (hp : Consumes p) : Consumes (probe label p)

variable {lists : String → Text → Listing Value}

theorem leavesLessThan_choice {ps : List Grammar} {t : Text}
    (h : ∀ p ∈ ps, (p.eager lists t).LeavesLessThan t) :
    (eager.eagerChoice lists ps t).LeavesLessThan t := by
  induction ps with
  | nil => exact Listing.leavesLessThan_empty
  | cons p ps ih =>
      exact (h p List.mem_cons_self).append (ih fun q hq => h q (List.mem_cons_of_mem p hq))

theorem leavesLessThan_sequence (hends : ∀ name t, (lists name t).LeavesEndOf t)
    {ps : List Grammar} {p : Grammar} (hmem : p ∈ ps)
    (h : ∀ t, (p.eager lists t).LeavesLessThan t) (t : Text) :
    (eager.eagerSequence lists ps t).LeavesLessThan t := by
  induction ps generalizing t with
  | nil => cases hmem
  | cons q ps ih =>
      have hnext : ∀ t, (eager.eagerSequence lists ps t).LeavesEndOf t :=
        leavesEndOf_sequence fun q _ => leavesEndOf_eager hends q
      rcases List.mem_cons.mp hmem with rfl | hmem
      · exact (h t).flatMap fun a => (hnext a.rest).map _
      · exact (leavesEndOf_eager hends q t).flatMap_leavesLessThan fun a =>
          (ih hmem a.rest).map _

/-- What the form of a grammar excludes does not occur. -/
theorem Consumes.leavesLessThan_eager (hends : ∀ name t, (lists name t).LeavesEndOf t)
    {g : Grammar} (hg : g.Consumes) (t : Text) : (g.eager lists t).LeavesLessThan t := by
  have hleaves := fun g : Grammar => leavesEndOf_eager hends g
  induction hg generalizing t with
  | any =>
      cases t with
      | nil => exact Listing.leavesLessThan_empty
      | cons c t => exact Listing.leavesLessThan_single _ (Nat.lt_succ_self t.length)
  | satisfy accepts =>
      cases t with
      | nil => exact Listing.leavesLessThan_empty
      | cons c t =>
          unfold eager
          split
          · exact Listing.leavesLessThan_single _ (Nat.lt_succ_self t.length)
          · exact Listing.leavesLessThan_empty
  | @literal s h =>
      unfold eager
      split
      · rename_i hprefix
        have hpos := List.length_pos_of_ne_nil h
        have hle := hprefix.length_le
        refine Listing.leavesLessThan_single _ ?_
        rw [List.length_drop]
        omega
      · exact Listing.leavesLessThan_empty
  | fail => exact Listing.leavesLessThan_empty
  | bindFirst _ ih => exact (ih t).flatMap fun a => hleaves _ a.rest
  | bindNext _ ih => exact (hleaves _ t).flatMap_leavesLessThan fun a => ih a.value a.rest
  | andFirst _ ih => exact (ih t).flatMap fun a => (hleaves _ a.rest).map _
  | andSecond _ ih => exact (hleaves _ t).flatMap_leavesLessThan fun a => (ih a.rest).map _
  | or _ _ ihp ihq => exact (ihp t).append (ihq t)
  | choice _ ih => exact leavesLessThan_choice fun p hp => ih p hp t
  | sequence hmem _ ih => exact (leavesLessThan_sequence hends hmem ih t).map _
  | map _ ih => exact (ih t).map _
  | repeated _ hmin ih =>
      exact (Listing.leavesLessThan_repeatFrom (hleaves _) (ih t) hmin).map _
  | delayed _ ih => exact ih t
  | probe _ ih => exact ih t

end Grammar

end Backtrack
