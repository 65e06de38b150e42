import Backtrack.Proofs.Unfolding
import Mathlib.Data.Fintype.EquivFin

/-!
Repetition of a parser with at most one alternative. Such a parser matches some number of times in
a row, and a repetition goes through these matches once, up to the greatest count. The longest run
is its first alternative, and each later one gives back one match, down to the least count. All of
this work is done by the first pull: to give back a match, the repeated parser is not called again.

The calls of the repeated parser are told from those inside it by a label that nothing in it has.
-/

namespace Backtrack

def textsOf (label : String) (calls : List Call) : List Text :=
  (calls.filter (·.label = label)).map Call.text

section

variable (label : String)

@[simp] theorem textsOf_append (c d : List Call) :
    textsOf label (c ++ d) = textsOf label c ++ textsOf label d := by
  simp [textsOf]

theorem textsOf_cons_self (t : Text) (c : List Call) :
    textsOf label (⟨label, t⟩ :: c) = t :: textsOf label c := by
  simp [textsOf]

theorem textsOf_eq_nil {calls : List Call} (h : ∀ call ∈ calls, call.label ≠ label) :
    textsOf label calls = [] := by
  simpa [textsOf] using h

end

namespace Opening

variable {α β : Type} {o : Opening α} {label : String}

def Avoids (o : Opening α) (label : String) : Prop := ∀ call ∈ o.allCalls, call.label ≠ label

theorem Avoids.textsOf_calls (h : o.Avoids label) : textsOf label o.calls = [] :=
  textsOf_eq_nil label fun call hcall => h call (List.mem_append_left _ hcall)

end Opening

namespace Alternatives

variable {α β : Type} {s : Alternatives α} {label : String} {texts : List Text}

/-- The calls with the label are all made by the first pull, and these are their texts. -/
def CallsAtOnce (label : String) (texts : List Text) : Alternatives α → Prop
  | exhausted calls => textsOf label calls = texts
  | cutOff calls => textsOf label calls = texts
  | next calls _ tail =>
    textsOf label calls = texts ∧ ∀ call ∈ (tail ()).allCalls, call.label ≠ label

theorem callsAtOnce_nil (h : ∀ call ∈ s.allCalls, call.label ≠ label) :
    s.CallsAtOnce label [] := by
  cases s with
  | exhausted c => exact textsOf_eq_nil label h
  | cutOff c => exact textsOf_eq_nil label h
  | next c a tail =>
      obtain ⟨hc, htail⟩ := List.forall_mem_append.mp h
      exact ⟨textsOf_eq_nil label hc, htail⟩

theorem CallsAtOnce.after (h : s.CallsAtOnce label texts) (c : List Call) :
    (s.after c).CallsAtOnce label (textsOf label c ++ texts) := by
  cases s with
  | exhausted d => exact (textsOf_append label c d).trans (congrArg _ h)
  | cutOff d => exact (textsOf_append label c d).trans (congrArg _ h)
  | next d a tail => exact ⟨(textsOf_append label c d).trans (congrArg _ h.1), h.2⟩

theorem CallsAtOnce.map (h : s.CallsAtOnce label texts) (f : α → β) :
    (map f s).CallsAtOnce label texts := by
  cases s with
  | exhausted c => exact h
  | cutOff c => exact h
  | next c a tail =>
      refine ⟨h.1, ?_⟩
      rw [allCalls_map]
      exact h.2

theorem CallsAtOnce.append (h : s.CallsAtOnce label texts) (later : Unit → Opening α)
    (hlater : (later ()).Avoids label) : (append later s).CallsAtOnce label texts := by
  obtain ⟨hopen, hpulls⟩ := List.forall_mem_append.mp hlater
  cases s with
  | exhausted c =>
      have hafter := (callsAtOnce_nil hpulls).after (c ++ (later ()).calls)
      rwa [textsOf_append, textsOf_eq_nil label hopen, List.append_nil, List.append_nil,
        show textsOf label c = texts from h] at hafter
  | cutOff c => exact h
  | next c a tail =>
      refine ⟨h.1, fun call hcall => ?_⟩
      rcases List.mem_append.mp (allCalls_append_subset _ _ hcall) with hcall | hcall
      · exact h.2 call hcall
      · exact hlater call hcall

/-- A single branch, behind which nothing with the label is called. -/
theorem CallsAtOnce.bind_next {f : Alternative α → Opening β} {c c' : List Call}
    {a : Alternative α} {tail : Unit → Alternatives α} (htail : tail () = exhausted c')
    (havoids : ∀ call ∈ (next c a tail).allCalls, call.label ≠ label)
    (h : ((f a).alternatives ()).CallsAtOnce label texts) :
    (bind f (next c a tail)).CallsAtOnce label (textsOf label (f a).calls ++ texts) := by
  obtain ⟨hc, hc'⟩ := List.forall_mem_append.mp havoids
  have hlater : (⟨[], fun _ => bind f (tail ())⟩ : Opening β).Avoids label := by
    intro call hcall
    rw [htail] at hc' hcall
    exact hc' call hcall
  have happend := h.append (fun _ => ⟨[], fun _ => bind f (tail ())⟩) hlater
  have hbranch := happend.after (c ++ (f a).calls)
  rw [textsOf_append, textsOf_eq_nil label hc, List.nil_append] at hbranch
  rw [Alternatives.bind_next]
  exact hbranch

/-! What a sequence looks like that comes to its end with no or with one alternative. -/

theorem exists_eq_exhausted (hends : s.ends) (hlist : s.toList = []) : ∃ c, s = exhausted c := by
  cases s with
  | exhausted c => exact ⟨c, rfl⟩
  | cutOff c => cases hends
  | next c a tail => cases hlist

theorem exists_eq_next {a : Alternative α} (hends : s.ends) (hlist : s.toList = [a]) :
    ∃ c c' tail, s = next c a tail ∧ tail () = exhausted c' := by
  cases s with
  | exhausted c => cases hlist
  | cutOff c => cases hlist
  | next c a' tail =>
      obtain ⟨rfl, htail⟩ := List.cons.inj hlist
      obtain ⟨c', hc'⟩ := exists_eq_exhausted (s := tail ()) hends htail
      exact ⟨c, c', tail, rfl, hc'⟩

theorem CallsAtOnce.calls_pull (h : s.CallsAtOnce label texts) (k : ℕ) :
    textsOf label (pull (k + 1) fun _ => s).calls = texts := by
  cases s with
  | exhausted c => exact h
  | cutOff c => exact h
  | next c a tail =>
      have hlater : textsOf label (pull k tail).calls = [] :=
        textsOf_eq_nil label fun call hcall => h.2 call (calls_pull_subset k tail hcall)
      rw [pull, textsOf_append, hlater, List.append_nil]
      exact h.1

end Alternatives

namespace Opening

variable {α β : Type} {o : Opening α} {label : String} {texts : List Text}

def CallsAtOnce (o : Opening α) (label : String) (texts : List Text) : Prop :=
  ∃ pulled, textsOf label o.calls ++ pulled = texts ∧
    (o.alternatives ()).CallsAtOnce label pulled

theorem Avoids.callsAtOnce (h : o.Avoids label) : o.CallsAtOnce label [] := by
  obtain ⟨hopen, hpulls⟩ := List.forall_mem_append.mp h
  exact ⟨[], by rw [textsOf_eq_nil label hopen, List.append_nil],
    Alternatives.callsAtOnce_nil hpulls⟩

theorem CallsAtOnce.calls_pull (h : o.CallsAtOnce label texts) (k : ℕ) :
    textsOf label (o.pull (k + 1)).calls = texts := by
  obtain ⟨pulled, rfl, hpulled⟩ := h
  rw [Opening.pull, textsOf_append]
  exact congrArg _ (hpulled.calls_pull k)

end Opening

namespace Bounds

def capped (b : Bounds) (n : ℕ) : ℕ := b.max.elim n (Min.min n)

theorem capped_of_max_eq_zero {b : Bounds} (hmax : b.max = some 0) (n : ℕ) : b.capped n = 0 := by
  simp [capped, hmax]

theorem capped_of_admits {b : Bounds} {n : ℕ} (h : b.Admits n) : b.capped n = n := by
  cases hmax : b.max with
  | none => simp [capped, hmax]
  | some m => simpa [capped, hmax] using h.2 m hmax

theorem capped_succ {b : Bounds} (hmax : b.max ≠ some 0) (n : ℕ) :
    b.capped (n + 1) = (b.after 1).capped n + 1 := by
  cases h : b.max with
  | none => simp [capped, after, h]
  | some m =>
      have hm : m ≠ 0 := fun hm => hmax (by rw [h, hm])
      simp only [capped, after, h, Option.map_some, Option.elim_some]
      omega

theorem capped_add_one (b : Bounds) (n : ℕ) :
    b.capped (n + 1) = if b.max = some (b.capped n) then b.capped n else b.capped n + 1 := by
  cases h : b.max with
  | none => simp [capped, h]
  | some m =>
      simp only [capped, h, Option.elim_some, Option.some.injEq]
      split <;> omega

end Bounds

namespace Parser

variable {α : Type} {p : Parser α} {t : Text} {b : Bounds} {a : Alternative α}
  {matched : List (Alternative α)}

/-- On every end of the text `t`, the parser comes to its end with at most one alternative, and
this takes something. -/
structure Deterministic (p : Parser α) (t : Text) : Prop where
  advances : p.Advances t
  ends : ∀ u, u <:+ t → ((p u).alternatives ()).ends
  atMostOne : ∀ u, u <:+ t → ((p u).alternatives ()).toList.length ≤ 1

instance (p : Parser α) (t : Text) : Decidable (p.Deterministic t) :=
  decidable_of_iff
    (p.Advances t ∧
      ∀ u ∈ t.tails, ((p u).alternatives ()).ends ∧ ((p u).alternatives ()).toList.length ≤ 1)
    (by
      simp only [List.mem_tails]
      exact ⟨fun h => ⟨h.1, fun u hu => (h.2 u hu).1, fun u hu => (h.2 u hu).2⟩,
        fun h => ⟨h.advances, fun u hu => ⟨h.ends u hu, h.atMostOne u hu⟩⟩⟩)

def Avoids (p : Parser α) (label : String) (t : Text) : Prop :=
  ∀ u, u <:+ t → (p u).Avoids label

instance (p : Parser α) (label : String) (t : Text) : Decidable (p.Avoids label t) :=
  decidable_of_iff (∀ u ∈ t.tails, ∀ call ∈ (p u).allCalls, call.label ≠ label)
    (by simp only [Avoids, Opening.Avoids, List.mem_tails])

theorem Avoids.of_suffix {label : String} {u : Text} (h : p.Avoids label t) (hu : u <:+ t) :
    p.Avoids label u :=
  fun v hv => h v (hv.trans hu)

/-- The successive matches of `p` from the start of a text: each one is the alternative on what the
one before it leaves over, and the last one leaves over a text without any. -/
inductive Matches (p : Parser α) : Text → List (Alternative α) → Prop
  | done {t : Text} (h : ((p t).alternatives ()).toList = []) : Matches p t []
  | more {t : Text} {a : Alternative α} {matched : List (Alternative α)}
      (h : ((p t).alternatives ()).toList = [a]) (hrest : Matches p a.rest matched) :
      Matches p t (a :: matched)

def runOf (t : Text) (matched : List (Alternative α)) : Alternative (List α) :=
  ⟨matched.map Alternative.value, matched.foldl (fun _ a => a.rest) t⟩

/-- The runs of as many of the matches as the bounds admit, the longest one first. -/
def runs (b : Bounds) (t : Text) (matched : List (Alternative α)) :
    List (Alternative (List α)) :=
  (List.range (b.capped matched.length + 1 - b.min)).map fun i =>
    runOf t (matched.take (b.capped matched.length - i))

theorem Deterministic.of_suffix {u : Text} (h : p.Deterministic t) (hu : u <:+ t) :
    p.Deterministic u :=
  ⟨h.advances.of_suffix hu, fun v hv => h.ends v (hv.trans hu),
    fun v hv => h.atMostOne v (hv.trans hu)⟩

theorem Deterministic.rest_suffix (h : p.Deterministic t)
    (ha : ((p t).alternatives ()).toList = [a]) : a.rest <:+ t :=
  (h.advances t List.suffix_rfl a (ha ▸ List.mem_singleton_self a)).1

theorem Deterministic.rest (h : p.Deterministic t) (ha : ((p t).alternatives ()).toList = [a]) :
    p.Deterministic a.rest :=
  h.of_suffix (h.rest_suffix ha)

theorem Deterministic.length_lt (h : p.Deterministic t)
    (ha : ((p t).alternatives ()).toList = [a]) : a.rest.length < t.length :=
  h.advances.length_lt (ha ▸ List.mem_singleton_self a)

theorem Deterministic.exists_matches (h : p.Deterministic t) : ∃ matched, p.Matches t matched := by
  induction hlength : t.length using Nat.strong_induction_on generalizing t with
  | _ n ih =>
      rcases hlist : ((p t).alternatives ()).toList with _ | ⟨a, _ | ⟨a', as⟩⟩
      · exact ⟨[], .done hlist⟩
      · have hlt := h.length_lt hlist
        obtain ⟨matched, hmatched⟩ := ih _ (hlength ▸ hlt) (h.rest hlist) rfl
        exact ⟨a :: matched, .more hlist hmatched⟩
      · have hone := h.atMostOne t List.suffix_rfl
        rw [hlist] at hone
        simp at hone

theorem Matches.pairwise_length (h : p.Matches t matched) (hp : p.Deterministic t) :
    (t :: matched.map Alternative.rest).Pairwise fun u v => v.length < u.length := by
  induction h with
  | done _ => simp
  | @more t a matched h hrest ih =>
      have hlt := hp.length_lt h
      have htail := ih (hp.rest h)
      rw [List.map_cons, List.pairwise_cons]
      refine ⟨?_, htail⟩
      rintro u (_ | ⟨_, hu⟩)
      · exact hlt
      · exact (List.rel_of_pairwise_cons htail hu).trans hlt

/-! ### The runs -/

theorem runs_of_capped_eq_zero (h : b.capped matched.length = 0) :
    runs b t matched = if b.min = 0 then [⟨[], t⟩] else [] := by
  rw [runs, h]
  split
  · simp [*, runOf]
  · have hnone : 0 + 1 - b.min = 0 := by omega
    rw [hnone]
    rfl

/-- The runs with a first match are those of the other matches with this one in front, and at the
very end the empty run. -/
theorem runs_cons (hmax : b.max ≠ some 0) :
    runs b t (a :: matched) =
      (runs (b.after 1) a.rest matched).map (Alternative.map (a.value :: ·)) ++
        if b.min = 0 then [⟨[], t⟩] else [] := by
  have hcapped : b.capped (a :: matched).length = (b.after 1).capped matched.length + 1 :=
    Bounds.capped_succ hmax matched.length
  rw [runs, runs, hcapped]
  generalize (b.after 1).capped matched.length = k
  -- The runs down to the least count, or to one match, which begin with the first match.
  have hfront : ∀ n ≤ k + 1,
      ((List.range n).map fun i => runOf t ((a :: matched).take (k + 1 - i))) =
        ((List.range n).map fun i => runOf a.rest (matched.take (k - i))).map
          (Alternative.map (a.value :: ·)) := by
    intro n hn
    rw [List.map_map]
    refine List.map_congr_left fun i hi => ?_
    have hi : k + 1 - i = k - i + 1 := by
      have := List.mem_range.mp hi
      omega
    rw [hi, List.take_succ_cons]
    rfl
  rcases hmin : b.min with _ | m
  · have hleast : (b.after 1).min = 0 := by simp [Bounds.after, hmin]
    rw [hleast, if_pos rfl, Nat.sub_zero, Nat.sub_zero, List.range_succ, List.map_append,
      hfront (k + 1) (Nat.le_refl _)]
    simp [runOf]
  · have hleast : (b.after 1).min = m := by simp [Bounds.after, hmin]
    rw [hleast, if_neg (Nat.succ_ne_zero m), List.append_nil, Nat.add_sub_add_right,
      hfront (k + 1 - m) (Nat.sub_le _ _)]

theorem listing_stop (b : Bounds) (t : Text) :
    ((stop b : Parser (List α)) t).listing = ⟨if b.min = 0 then [⟨[], t⟩] else [], true⟩ := by
  unfold stop
  split <;> rfl

/-- The alternatives of a repetition, in terms of what one iteration brings. -/
theorem listing_repeated_eq (hp : p.Advances t) (hmax : b.max ≠ some 0) :
    (p.repeated b t).listing =
      ((p t).listing.flatMap fun a =>
        (p.repeated (b.after 1) a.rest).listing.map (a.value :: ·)).append
          ((stop b : Parser (List α)) t).listing := by
  rw [repeated_eq_or hp hmax]
  simp only [or, map, and, Opening.listing_append, Opening.listing_map, Opening.listing_bind,
    Listing.map_flatMap, Listing.map_map]

/-- A repetition goes down from the longest run to the shortest one that is admitted. -/
theorem listing_repeated_of_matches (hp : p.Deterministic t) (h : p.Matches t matched)
    (b : Bounds) : (p.repeated b t).listing = ⟨runs b t matched, true⟩ := by
  induction h generalizing b with
  | @done t h =>
      have hruns : runs b t ([] : List (Alternative α)) = if b.min = 0 then [⟨[], t⟩] else [] :=
        runs_of_capped_eq_zero (by cases hmax : b.max <;> simp [Bounds.capped, hmax])
      by_cases hmax : b.max = some 0
      · rw [repeated_of_max_eq_zero hmax, listing_stop, hruns]
      · have hnone : (p t).listing = .empty := Listing.ext h (hp.ends t List.suffix_rfl)
        rw [listing_repeated_eq hp.advances hmax, hnone, Listing.empty_flatMap,
          Listing.empty_append, listing_stop, hruns]
  | @more t a matched h hrest ih =>
      by_cases hmax : b.max = some 0
      · rw [repeated_of_max_eq_zero hmax, listing_stop,
          runs_of_capped_eq_zero (Bounds.capped_of_max_eq_zero hmax _)]
      · have hone : (p t).listing = .cons a .empty :=
          Listing.ext h (hp.ends t List.suffix_rfl)
        rw [listing_repeated_eq hp.advances hmax, hone, Listing.cons_flatMap,
          Listing.empty_flatMap, ih (hp.rest h), listing_stop, runs_cons hmax]
        simp [Listing.append, Listing.map, Listing.empty]

/-! ### The calls -/

theorem avoids_stop (b : Bounds) (t : Text) (label : String) :
    ((stop b : Parser (List α)) t).Avoids label := by
  unfold stop
  split <;> exact fun call hcall => absurd hcall List.not_mem_nil

section Calls

variable {label : String} {texts : List Text}

/-- The repeated parser is called first, and nothing is called to stop a run. -/
theorem callsAtOnce_repeated (hp : p.Advances t) (hmax : b.max ≠ some 0)
    (havoids : (p t).Avoids label)
    (h : (Alternatives.bind
      (fun a => ((p.probe label).repeated (b.after 1) a.rest).map (a.value, ·))
      ((p t).alternatives ())).CallsAtOnce label texts) :
    ((p.probe label).repeated b t).CallsAtOnce label (t :: texts) := by
  have hprobe : (p.probe label).Advances t := hp
  have hopen : textsOf label (⟨label, t⟩ :: (p t).calls) = [t] := by
    rw [textsOf_cons_self, havoids.textsOf_calls]
  rw [repeated_eq_or hprobe hmax]
  exact ⟨texts, congrArg (· ++ texts) hopen, (h.map _).append _ (avoids_stop b t label)⟩

theorem callsAtOnce_of_no_match (hp : p.Deterministic t) (hmax : b.max ≠ some 0)
    (havoids : (p t).Avoids label) (hnone : ((p t).alternatives ()).toList = []) :
    ((p.probe label).repeated b t).CallsAtOnce label [t] := by
  refine callsAtOnce_repeated hp.advances hmax havoids ?_
  obtain ⟨c, hc⟩ := Alternatives.exists_eq_exhausted (hp.ends t List.suffix_rfl) hnone
  obtain ⟨-, hpulls⟩ := List.forall_mem_append.mp havoids
  rw [hc] at hpulls ⊢
  exact textsOf_eq_nil label hpulls

theorem callsAtOnce_of_match (hp : p.Deterministic t) (hmax : b.max ≠ some 0)
    (havoids : (p t).Avoids label) (hone : ((p t).alternatives ()).toList = [a])
    (h : ((p.probe label).repeated (b.after 1) a.rest).CallsAtOnce label texts) :
    ((p.probe label).repeated b t).CallsAtOnce label (t :: texts) := by
  refine callsAtOnce_repeated hp.advances hmax havoids ?_
  obtain ⟨c, c', tail, hnext, htail⟩ :=
    Alternatives.exists_eq_next (hp.ends t List.suffix_rfl) hone
  obtain ⟨pulled, rfl, hpulled⟩ := h
  obtain ⟨-, hpulls⟩ := List.forall_mem_append.mp havoids
  rw [hnext] at hpulls ⊢
  exact Alternatives.CallsAtOnce.bind_next htail hpulls (hpulled.map _)

/-- One call on each text that matches leave over, as far as iterations are admitted. -/
theorem callsAtOnce_of_matches (hp : p.Deterministic t) (h : p.Matches t matched)
    (havoids : p.Avoids label t) (b : Bounds) :
    ((p.probe label).repeated b t).CallsAtOnce label
      ((t :: matched.map Alternative.rest).take (b.capped (matched.length + 1))) := by
  induction h generalizing b with
  | @done t h =>
      by_cases hmax : b.max = some 0
      · rw [Bounds.capped_of_max_eq_zero hmax, repeated_of_max_eq_zero hmax]
        exact (avoids_stop b t label).callsAtOnce
      · rw [List.length_nil, Bounds.capped_succ hmax, List.map_nil, List.take_succ_cons,
          List.take_nil]
        exact callsAtOnce_of_no_match hp hmax (havoids t List.suffix_rfl) h
  | @more t a matched h hrest ih =>
      by_cases hmax : b.max = some 0
      · rw [Bounds.capped_of_max_eq_zero hmax, repeated_of_max_eq_zero hmax]
        exact (avoids_stop b t label).callsAtOnce
      · have hrest : p.Avoids label a.rest := havoids.of_suffix (hp.rest_suffix h)
        have hlater := ih (hp.rest h) hrest (b.after 1)
        rw [List.length_cons, Bounds.capped_succ hmax, List.map_cons, List.take_succ_cons]
        exact callsAtOnce_of_match hp hmax (havoids t List.suffix_rfl) h hlater

end Calls

/-- There is always a label that nothing in a parser has, as it makes finitely many calls. -/
theorem exists_avoids (p : Parser α) (t : Text) : ∃ label, p.Avoids label t := by
  obtain ⟨label, hlabel⟩ := Infinite.exists_notMem_finset
    (t.tails.flatMap fun u => (p u).allCalls.map Call.label).toFinset
  refine ⟨label, fun u hu call hcall heq => hlabel ?_⟩
  rw [List.mem_toFinset, List.mem_flatMap]
  exact ⟨u, (List.mem_tails _ _).mpr hu, List.mem_map.mpr ⟨call, hcall, heq⟩⟩

/-- **Repeating a parser with at most one alternative.** Let `k` be the number of successive matches
of `p` from the start of the text, or the greatest count if this is smaller. The alternatives of the
repetition are the runs of `k`, `k - 1` and so on down to the least count of matches, none if `k` is
below it; each run leaves over what its last match does. The texts on which `p` itself is called are
the text and then what the matches leave over, from the longest to the shortest: the first `k` of
them if `k` is the greatest count, and `k + 1` otherwise. All of these calls are made as soon as
there has been one pull, and later pulls make no other. -/
theorem deterministic_repetition (hp : p.Deterministic t) (b : Bounds) :
    ∃ matched k, p.Matches t matched ∧ k = b.capped matched.length ∧
      ((p.repeated b t).alternatives ()).ends ∧
      ((p.repeated b t).alternatives ()).toList =
        (List.range (k + 1 - b.min)).map (fun i => runOf t (matched.take (k - i))) ∧
      (t :: matched.map Alternative.rest).Pairwise (fun u v => v.length < u.length) ∧
      (∃ label, p.Avoids label t) ∧
      ∀ label, p.Avoids label t → ∀ pulls ≥ 1,
        textsOf label (((p.probe label).repeated b t).pull pulls).calls =
          (t :: matched.map Alternative.rest).take (if b.max = some k then k else k + 1) := by
  obtain ⟨matched, hmatched⟩ := hp.exists_matches
  have hlisting := listing_repeated_of_matches hp hmatched b
  refine ⟨matched, _, hmatched, rfl, congrArg Listing.complete hlisting,
    congrArg Listing.items hlisting, hmatched.pairwise_length hp, p.exists_avoids t, ?_⟩
  intro label havoids pulls hpulls
  obtain ⟨pulls, rfl⟩ := Nat.exists_eq_add_of_le' hpulls
  rw [← Bounds.capped_add_one]
  exact (callsAtOnce_of_matches hp hmatched havoids b).calls_pull pulls

/-- Two matches, of which at least one is asked for, and no third one. To give back a match, only
what is inside the parser is called again. -/
theorem deterministic_repetition_two :
    let p : Parser Text := (literal ['a']).or (fail.probe "inside")
    let t : Text := ['a', 'a', 'b']
    let b : Bounds := ⟨1, some 3⟩
    p.Deterministic t ∧ p.Avoids "p" t ∧
      (∃ matched k, p.Matches t matched ∧ k = b.capped matched.length ∧
        ((p.repeated b t).alternatives ()).toList =
          (List.range (k + 1 - b.min)).map (fun i => runOf t (matched.take (k - i))) ∧
        ∀ pulls ≥ 1, textsOf "p" (((p.probe "p").repeated b t).pull pulls).calls =
          (t :: matched.map Alternative.rest).take (if b.max = some k then k else k + 1)) ∧
      ((p.repeated b t).alternatives ()).toList =
        [⟨[['a'], ['a']], ['b']⟩, ⟨[['a']], ['a', 'b']⟩] ∧
      (((p.probe "p").repeated b t).pull 1).calls =
        [⟨"p", t⟩, ⟨"p", ['a', 'b']⟩, ⟨"p", ['b']⟩, ⟨"inside", ['b']⟩] ∧
      (((p.probe "p").repeated b t).pull 3).calls =
        [⟨"p", t⟩, ⟨"p", ['a', 'b']⟩, ⟨"p", ['b']⟩, ⟨"inside", ['b']⟩, ⟨"inside", ['a', 'b']⟩,
          ⟨"inside", t⟩] := by
  intro p t b
  have hp : p.Deterministic t := by decide
  have havoids : p.Avoids "p" t := by decide
  obtain ⟨matched, k, hmatched, hk, -, hlist, -, -, hcalls⟩ := deterministic_repetition hp b
  exact ⟨hp, havoids, ⟨matched, k, hmatched, hk, hlist, hcalls "p" havoids⟩, by decide +kernel,
    by decide +kernel, by decide +kernel⟩

end Parser

end Backtrack
