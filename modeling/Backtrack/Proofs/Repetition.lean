import Backtrack.Proofs.Language

/-!
Repetitions under bounds. Bounds only choose among the runs that an unbounded repetition offers:
its alternatives with an admitted number of iterations, in the same order, are the alternatives
under the bounds. The empty run is the last of all and the only one without iterations.
-/

namespace Backtrack

namespace Listing

variable {α β : Type}

/-! ### Filters -/

def filter (P : Alternative α → Prop) [DecidablePred P] (l : Listing α) : Listing α :=
  ⟨l.items.filter P, l.complete⟩

section Filter

variable (P : Alternative α → Prop) [DecidablePred P]

@[simp] theorem complete_filter (l : Listing α) : (l.filter P).complete = l.complete := rfl

theorem filter_append (l m : Listing α) :
    (l.append m).filter P = (l.filter P).append (m.filter P) := by
  unfold append
  rw [complete_filter]
  split
  · simp [filter]
  · rfl

theorem filter_flatMap (l : Listing β) (f : Alternative β → Listing α) :
    (l.flatMap f).filter P = l.flatMap fun a => (f a).filter P := by
  induction l with
  | empty => rfl
  | bot => rfl
  | cons a l ih => rw [cons_flatMap, filter_append, ih, cons_flatMap]

theorem filter_map (f : β → α) (l : Listing β) :
    (l.map f).filter P = (l.filter fun a => P (a.map f)).map f := by
  simp only [filter, map, List.filter_map]
  rfl

theorem filter_single (v : α) (r : Text) :
    (single v r).filter P = if P ⟨v, r⟩ then single v r else empty := by
  split <;> simp [filter, single, empty, *]

variable {P} {Q : Alternative α → Prop} [DecidablePred Q]

theorem filter_congr {l : Listing α} (h : ∀ a, P a ↔ Q a) : l.filter P = l.filter Q :=
  Listing.ext (List.filter_congr fun a _ => decide_eq_decide.mpr (h a)) rfl

end Filter

theorem flatMap_congr {l : Listing α} {f g : Alternative α → Listing β}
    (h : ∀ a ∈ l.items, f a = g a) : l.flatMap f = l.flatMap g := by
  induction l with
  | empty => rfl
  | bot => rfl
  | cons a l ih =>
      obtain ⟨ha, hl⟩ := List.forall_mem_cons.mp h
      rw [cons_flatMap, cons_flatMap, ha, ih hl]

/-! ### Runs -/

variable {p : Text → Listing α} {t : Text} {count : ℕ}

def longerRuns (p : Text → Listing α) (count : ℕ) (t : Text) : Listing (List α) :=
  (p t).flatMap fun a =>
    if a.rest.length < t.length then
      (repeatFrom p (.atLeast 0) (count + 1) a.rest).map (a.value :: ·)
    else .single [a.value] a.rest

theorem repeatFrom_atLeast_zero (p : Text → Listing α) (count : ℕ) (t : Text) :
    repeatFrom p (.atLeast 0) count t = (longerRuns p count t).append (.single [] t) := by
  rw [repeatFrom]
  simp [Bounds.atLeast, longerRuns]

theorem ne_nil_of_mem_longerRuns {a : Alternative (List α)}
    (h : a ∈ (longerRuns p count t).items) : a.value ≠ [] := by
  obtain ⟨b, -, hb⟩ := mem_flatMap h
  split at hb
  · rw [items_map, List.mem_map] at hb
    obtain ⟨c, -, rfl⟩ := hb
    exact List.cons_ne_nil _ _
  · obtain rfl := List.mem_singleton.mp hb
    exact List.cons_ne_nil _ _

/-- What an unbounded repetition has to go through is complete if the repetition is. -/
theorem complete_of_repeatFrom (h : (repeatFrom p (.atLeast 0) count t).complete) :
    (longerRuns p count t).complete ∧ (p t).complete ∧
      ∀ a ∈ (p t).items, a.rest.length < t.length →
        (repeatFrom p (.atLeast 0) (count + 1) a.rest).complete := by
  rw [repeatFrom_atLeast_zero, complete_append] at h
  obtain ⟨hp, hbranches⟩ := complete_flatMap.mp h.1
  refine ⟨h.1, hp, fun a ha hlt => ?_⟩
  have hbranch := hbranches a ha
  rwa [if_pos hlt, complete_map] at hbranch

theorem items_repeatFrom (h : (repeatFrom p (.atLeast 0) count t).complete) :
    (repeatFrom p (.atLeast 0) count t).items = (longerRuns p count t).items ++ [⟨[], t⟩] := by
  rw [repeatFrom_atLeast_zero, items_append (complete_of_repeatFrom h).1, items_single]

theorem items_longerRuns_eq_nil (h : (repeatFrom p (.atLeast 0) count t).complete) :
    (longerRuns p count t).items = [] ↔ (p t).items = [] := by
  obtain ⟨hlonger, -, hrest⟩ := complete_of_repeatFrom h
  rw [longerRuns, items_flatMap hlonger, List.flatMap_eq_nil_iff]
  constructor
  · intro hnone
    refine List.eq_nil_iff_forall_not_mem.mpr fun a ha => ?_
    have hbranch := hnone a ha
    split at hbranch
    · rename_i hlt
      rw [items_map, items_repeatFrom (hrest a ha hlt)] at hbranch
      simp at hbranch
    · simp at hbranch
  · intro hnone a ha
    rw [hnone] at ha
    exact absurd ha List.not_mem_nil

/-- Once the greatest count is reached, no longer run is admitted. -/
theorem filter_longerRuns_eq_empty {b : Bounds} (hmax : count ∈ b.max)
    (hlonger : (longerRuns p count t).complete) :
    ((longerRuns p count t).filter fun a => b.Admits (count + a.value.length)) = empty := by
  refine Listing.ext (List.filter_eq_nil_iff.mpr fun a ha hadmits => ?_) hlonger
  have hpos := List.length_pos_of_ne_nil (ne_nil_of_mem_longerRuns ha)
  have hle := (of_decide_eq_true hadmits).2 count hmax
  omega

/-- **Bounds are a filter.** After `count` iterations, no more than are admitted, the runs under
bounds are those of the unbounded repetition with which the number of iterations is admitted. -/
theorem repeatFrom_eq_filter {b : Bounds} (hcount : ∀ m ∈ b.max, count ≤ m)
    (h : (repeatFrom p (.atLeast 0) count t).complete) :
    repeatFrom p b count t =
      (repeatFrom p (.atLeast 0) count t).filter fun a => b.Admits (count + a.value.length) := by
  induction hn : t.length using Nat.strong_induction_on generalizing count t with
  | _ n ih =>
      obtain ⟨hlonger, -, hrest⟩ := complete_of_repeatFrom h
      have hstop : b.Admits count ↔ b.min ≤ count := and_iff_left hcount
      rw [repeatFrom_atLeast_zero, filter_append, filter_single]
      simp only [List.length_nil, Nat.add_zero, hstop]
      rw [repeatFrom]
      split
      · rename_i hmax
        obtain ⟨m, hm, hle⟩ := (Option.any_eq_true _ _).mp hmax
        obtain rfl : m = count := le_antisymm (of_decide_eq_true hle) (hcount m hm)
        rw [filter_longerRuns_eq_empty hm hlonger, empty_append]
      · rename_i hmax
        rw [Bool.not_eq_true, Option.any_eq_false] at hmax
        have hmore : ∀ m ∈ b.max, count + 1 ≤ m := fun m hm =>
          not_le.mp (of_decide_eq_false (hmax m hm))
        congr 1
        rw [longerRuns, filter_flatMap]
        refine flatMap_congr fun a ha => ?_
        split
        · rename_i hlt
          rw [filter_map, ih _ (hn ▸ hlt) hmore (hrest a ha hlt) rfl]
          refine congrArg (map _) (filter_congr fun r => ?_)
          have hlength : count + 1 + r.value.length = count + (a.value :: r.value).length := by
            rw [List.length_cons]
            omega
          rw [hlength]
          rfl
        · have hlast : b.Admits (count + 1) ↔ b.min ≤ count + 1 := and_iff_left hmore
          rw [filter_single]
          simp only [List.length_singleton, hlast]

end Listing

namespace Bounds

/-- The bounds of a range with both ends, which is not empty and ends before the greatest count. -/
theorem ofRange_included {first last : UInt64} (h : first ≤ last) (hlast : last.toNat < maxCount) :
    ofRange (.included first) (.included last) = .ok ⟨first.toNat, some last.toNat⟩ := by
  have hle : ¬last.toNat + 1 ≤ first.toNat := Nat.not_le_of_lt (Nat.lt_succ_of_le h)
  simp [ofRange, upper, lower, hlast.ne, hle]

end Bounds

namespace Parser

variable {α : Type}

theorem listing_repeated (p : Parser α) (b : Bounds) (t : Text) :
    (p.repeated b t).listing = Listing.repeatFrom (fun u => (p u).listing) b 0 t :=
  Grammar.listing_repeatFrom (fun _ => rfl) b 0 t

theorem listing_repeated_eq_filter {p : Parser α} {t : Text}
    (hends : ((p.many t).alternatives ()).ends) (b : Bounds) :
    (p.repeated b t).listing = (p.many t).listing.filter fun a => b.Admits a.value.length := by
  have hcomplete : (p.many t).listing.complete := hends
  rw [many, listing_repeated] at hcomplete
  rw [many, listing_repeated, listing_repeated,
    Listing.repeatFrom_eq_filter (fun m _ => Nat.zero_le m) hcomplete]
  exact Listing.filter_congr fun a => by rw [Nat.zero_add]

theorem toList_many {p : Parser α} {t : Text} (hends : ((p.many t).alternatives ()).ends) :
    ((p.many t).alternatives ()).toList =
      (Listing.longerRuns (fun u => (p u).listing) 0 t).items ++ [⟨[], t⟩] := by
  have hcomplete : (p.many t).listing.complete := hends
  rw [many, listing_repeated] at hcomplete
  change (p.many t).listing.items = _
  rw [many, listing_repeated, Listing.items_repeatFrom hcomplete]

theorem toList_many1 {p : Parser α} {t : Text} (hends : ((p.many t).alternatives ()).ends) :
    ((p.many1 t).alternatives ()).toList =
      (Listing.longerRuns (fun u => (p u).listing) 0 t).items := by
  have hfilter : ((p.many1 t).alternatives ()).toList =
      ((p.many t).alternatives ()).toList.filter
        fun a => (Bounds.atLeast 1).Admits a.value.length :=
    congrArg Listing.items (listing_repeated_eq_filter hends (.atLeast 1))
  rw [hfilter, toList_many hends, List.filter_append, List.filter_eq_self.mpr ?longer,
    List.filter_eq_nil_iff.mpr ?last, List.append_nil]
  case longer =>
    intro a ha
    have hpos := List.length_pos_of_ne_nil (Listing.ne_nil_of_mem_longerRuns ha)
    exact decide_eq_true (Grammar.admits_atLeast.mpr hpos)
  case last =>
    simp [Grammar.admits_atLeast]

/-- **Bounds are a filter.** Where the unbounded repetition comes to its end, so does the
repetition under any bounds, and its alternatives are those of the unbounded one with an admitted
number of iterations, in the same order and with the same rests; a range of counts admits those
between its ends. The last alternative of the unbounded repetition is the empty run, which leaves
over the whole text, and no other run is empty. Without this alternative it is the repetition of
one or more iterations, which has no alternative if and only if the repeated parser has none. -/
theorem bounds_filter_runs (p : Parser α) (t : Text)
    (hends : ((p.many t).alternatives ()).ends) :
    (∀ b : Bounds, ((p.repeated b t).alternatives ()).ends ∧
      ((p.repeated b t).alternatives ()).toList =
        ((p.many t).alternatives ()).toList.filter fun a => b.Admits a.value.length) ∧
    (∀ first last : UInt64, first ≤ last → last.toNat < Bounds.maxCount →
      ∃ b, Bounds.ofRange (.included first) (.included last) = .ok b ∧
        ∀ n, b.Admits n ↔ first.toNat ≤ n ∧ n ≤ last.toNat) ∧
    (∀ first : UInt64, ∃ b, Bounds.ofRange (.included first) .unbounded = .ok b ∧
      ∀ n, b.Admits n ↔ first.toNat ≤ n) ∧
    ∃ longer, ((p.many t).alternatives ()).toList = longer ++ [⟨[], t⟩] ∧
      (∀ a ∈ longer, a.value ≠ []) ∧
      ((p.many1 t).alternatives ()).toList = longer ∧
      (((p.many1 t).alternatives ()).toList = [] ↔ ((p t).alternatives ()).toList = []) := by
  refine ⟨fun b => ?_, fun first last h hlast => ⟨_, Bounds.ofRange_included h hlast, fun n => ?_⟩,
    fun first => ⟨_, rfl, fun n => ?_⟩, _, toList_many hends,
    fun a => Listing.ne_nil_of_mem_longerRuns, toList_many1 hends, ?_⟩
  · have hfilter := listing_repeated_eq_filter hends b
    exact ⟨(congrArg Listing.complete hfilter).trans hends, congrArg Listing.items hfilter⟩
  · simp [Bounds.Admits]
  · simp [Bounds.Admits, Bounds.lower]
  · have hcomplete : (p.many t).listing.complete := hends
    rw [many, listing_repeated] at hcomplete
    rw [toList_many1 hends]
    exact Listing.items_longerRuns_eq_nil hcomplete

/-- Iterations of two widths and one that takes nothing. Of the eight runs that there are, the
bounds from one to two admit six: the one of three iterations and the empty one are left out. -/
theorem bounds_filter_runs_widths :
    let p : Parser Text := (literal ['a', 'a']).or ((literal ['a']).or (literal []))
    let t : Text := ['a', 'a']
    let lengths (as : List (Alternative (List Text))) := as.map (·.value.map List.length)
    ((p.many t).alternatives ()).ends ∧
      lengths ((p.many t).alternatives ()).toList =
        [[2, 0], [2], [1, 1, 0], [1, 1], [1, 0], [1], [0], []] ∧
      ((p.repeated ⟨1, some 2⟩ t).alternatives ()).toList =
        ((p.many t).alternatives ()).toList.filter
          (fun a => (⟨1, some 2⟩ : Bounds).Admits a.value.length) ∧
      lengths ((p.repeated ⟨1, some 2⟩ t).alternatives ()).toList =
        [[2, 0], [2], [1, 1], [1, 0], [1], [0]] := by
  intro p t lengths
  have hends : ((p.many t).alternatives ()).ends := by decide +kernel
  exact ⟨hends, by decide +kernel, ((bounds_filter_runs p t hends).1 ⟨1, some 2⟩).2,
    by decide +kernel⟩

end Parser

end Backtrack
