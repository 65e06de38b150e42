import Backtrack.Proofs.Listing
import Backtrack.Run

/-!
What a run answers. The first acceptable alternative within the limit is the result, and no more
is pulled than it takes to find it. If there is none, the error is located at the furthest point
that any of the examined alternatives reached. An alternative that is neither accepted nor beyond
the limit is skipped, so a run is settled by what stands behind the alternatives it skips.
-/

namespace Backtrack

namespace Options

variable {α : Type} {o : Options} {n : ℕ}

/-- Whether an alternative may be the result: it leaves nothing over, unless any rest will do. -/
def accepts (o : Options) (a : Alternative α) : Bool := !o.requireComplete || a.rest.isEmpty

def Allows (o : Options) (n : ℕ) : Prop := ∀ limit ∈ o.maxAlternatives, n ≤ limit.toNat

theorem Allows.mono {m : ℕ} (h : o.Allows n) (hmn : m ≤ n) : o.Allows m :=
  fun limit hlimit => hmn.trans (h limit hlimit)

theorem allows_of_none (h : o.maxAlternatives = none) : o.Allows n :=
  fun limit hlimit => absurd (h ▸ hlimit) (Option.not_mem_none limit)

theorem exists_of_not_allows (h : ¬o.Allows n) : ∃ limit ∈ o.maxAlternatives, limit.toNat < n := by
  simpa only [Allows, not_forall, not_le, exists_prop] using h

/-- What is in store for an alternative behind `n` others: it is within the limit, and is accepted
or not, or the limit is reached. -/
theorem examine_cases (o : Options) (n : ℕ) (a : Alternative α) :
    (o.Allows (n + 1) ∧ o.accepts a) ∨ (o.Allows (n + 1) ∧ ¬o.accepts a) ∨
      ∃ limit ∈ o.maxAlternatives, limit.toNat ≤ n := by
  by_cases hallows : o.Allows (n + 1)
  · by_cases haccepts : o.accepts a
    · exact .inl ⟨hallows, haccepts⟩
    · exact .inr (.inl ⟨hallows, haccepts⟩)
  · obtain ⟨limit, hlimit, hlt⟩ := exists_of_not_allows hallows
    exact .inr (.inr ⟨limit, hlimit, Nat.le_of_lt_succ hlt⟩)

theorem rest_ne_nil_of_not_accepts {a : Alternative α} (h : ¬o.accepts a) : a.rest ≠ [] := by
  intro hrest
  exact h (by rw [accepts, hrest, List.isEmpty_nil, Bool.or_true])

theorem filter_eq_none (h : o.Allows (n + 1)) :
    o.maxAlternatives.filter (·.toNat ≤ n) = none := by
  rw [Option.filter_eq_none_iff]
  intro limit hlimit
  have hle := h limit hlimit
  simp only [decide_eq_true_eq]
  omega

theorem filter_eq_some {limit : UInt64} (h : limit ∈ o.maxAlternatives) (hn : limit.toNat ≤ n) :
    o.maxAlternatives.filter (·.toNat ≤ n) = some limit := by
  rw [Option.mem_def.mp h, Option.filter_some, if_pos (decide_eq_true hn)]

end Options

/-- The greatest number of bytes that one of the alternatives took of `input`, or zero if there
are none. -/
def mostConsumed {α : Type} (input : Text) (as : List (Alternative α)) : ℕ :=
  ((as.map (·.consumed input)).max?).getD 0

/-- An alternative that leaves over an end of `input` took what stands before it. -/
theorem Alternative.exists_append_eq_of_suffix {α : Type} {a : Alternative α} {input : Text}
    (h : a.rest <:+ input) :
    ∃ taken, taken ++ a.rest = input ∧ Text.byteLength taken = a.consumed input := by
  obtain ⟨taken, htaken⟩ := h
  refine ⟨taken, htaken, ?_⟩
  rw [consumed, ← htaken, Text.byteLength_append, Nat.add_sub_cancel_right]

def ParseError.location : ParseError → Location
  | noParse location => location
  | incomplete location _ => location
  | limitReached _ location => location

namespace Alternatives

variable {α : Type} {s : Alternatives α} {n : ℕ}

/-- What is still to come after `n` alternatives. -/
def skip : ℕ → Alternatives α → Alternatives α
  | 0, s => s
  | _ + 1, exhausted calls => exhausted calls
  | _ + 1, cutOff calls => cutOff calls
  | n + 1, next _ _ tail => skip n (tail ())

def nextCalls : Alternatives α → List Call
  | exhausted calls => calls
  | cutOff calls => calls
  | next calls _ _ => calls

@[simp] theorem skip_zero (s : Alternatives α) : skip 0 s = s := by
  cases s <;> rfl

@[simp] theorem skip_succ_next (n : ℕ) (c : List Call) (a : Alternative α)
    (tail : Unit → Alternatives α) : skip (n + 1) (next c a tail) = skip n (tail ()) := rfl

/-- The alternative at position `n` is brought by the pull after `n` others. -/
theorem exists_skip_eq_next {a : Alternative α} (h : s.toList[n]? = some a) :
    ∃ c tail, s.skip n = next c a tail := by
  induction s generalizing n with
  | exhausted c => simp [toList] at h
  | cutOff c => simp [toList] at h
  | next c b tail ih =>
      cases n with
      | zero =>
          obtain rfl : b = a := by simpa [toList] using h
          exact ⟨c, tail, rfl⟩
      | succ n =>
          rw [toList, List.getElem?_cons_succ] at h
          exact ih () h

/-- Behind its last alternative a sequence that is not cut off is exhausted. -/
theorem exists_skip_eq_exhausted (h : s.ends) :
    ∃ c, s.skip s.toList.length = exhausted c := by
  induction s with
  | exhausted c => exact ⟨c, rfl⟩
  | cutOff c => cases h
  | next c a tail ih => exact ih () h

theorem calls_pull_succ (h : n ≤ s.toList.length) :
    (pull (n + 1) fun _ => s).calls = (pull n fun _ => s).calls ++ (s.skip n).nextCalls := by
  induction n generalizing s with
  | zero => cases s <;> simp [pull, nextCalls]
  | succ n ih =>
      cases s with
      | exhausted c => exact absurd h (Nat.not_succ_le_zero n)
      | cutOff c => exact absurd h (Nat.not_succ_le_zero n)
      | next c a tail =>
          have htail := ih (s := tail ()) (Nat.le_of_succ_le_succ h)
          change c ++ (pull (n + 1) fun _ => tail ()).calls =
            c ++ (pull n fun _ => tail ()).calls ++ (skip n (tail ())).nextCalls
          rw [htail, List.append_assoc]

/-! ### The furthest point -/

/-- The shortest among `furthest` and the rests of the alternatives, the first of equally short
ones. -/
def furthestOf (furthest : Option Text) (as : List (Alternative α)) : Option Text :=
  as.foldl (fun furthest a => some (shorterRest furthest a.rest)) furthest

theorem shorterRest_induction {Q : Text → Prop} {furthest : Option Text} {rest : Text}
    (hfurthest : ∀ r ∈ furthest, Q r) (hrest : Q rest) : Q (shorterRest furthest rest) := by
  cases furthest with
  | none => exact hrest
  | some r =>
      rw [shorterRest]
      split
      · exact hrest
      · exact hfurthest r rfl

theorem furthestOf_induction {Q : Text → Prop} {furthest : Option Text}
    {as : List (Alternative α)} (hfurthest : ∀ r ∈ furthest, Q r) (has : ∀ a ∈ as, Q a.rest) :
    ∀ r ∈ furthestOf furthest as, Q r := by
  induction as generalizing furthest with
  | nil => exact hfurthest
  | cons a as ih =>
      rw [List.forall_mem_cons] at has
      refine ih (fun r hr => ?_) has.2
      obtain rfl : shorterRest furthest a.rest = r := by simpa using hr
      exact shorterRest_induction hfurthest has.1

theorem byteLength_shorterRest_le (r rest : Text) :
    (shorterRest (some r) rest).byteLength ≤ r.byteLength ∧
      (shorterRest (some r) rest).byteLength ≤ rest.byteLength := by
  simp only [shorterRest]
  split
  · exact ⟨by omega, le_rfl⟩
  · exact ⟨le_rfl, by omega⟩

theorem furthestOf_some (r : Text) (as : List (Alternative α)) :
    ∃ r', furthestOf (some r) as = some r' ∧ (r' = r ∨ ∃ a ∈ as, a.rest = r') ∧
      r'.byteLength ≤ r.byteLength ∧ ∀ a ∈ as, r'.byteLength ≤ a.rest.byteLength := by
  induction as generalizing r with
  | nil => exact ⟨r, rfl, .inl rfl, le_rfl, fun a ha => absurd ha List.not_mem_nil⟩
  | cons a as ih =>
      obtain ⟨hle, hlea⟩ := byteLength_shorterRest_le r a.rest
      obtain ⟨r', hr', hmem, hle', hall⟩ := ih (shorterRest (some r) a.rest)
      refine ⟨r', hr', ?_, hle'.trans hle, List.forall_mem_cons.mpr ⟨hle'.trans hlea, hall⟩⟩
      rcases hmem with rfl | ⟨b, hb, rfl⟩
      · refine shorterRest_induction (Q := fun r' => r' = r ∨ ∃ b ∈ a :: as, b.rest = r') ?_ ?_
        · intro r' h
          exact .inl (Option.some.inj h).symm
        · exact .inr ⟨a, List.mem_cons_self, rfl⟩
      · exact .inr ⟨b, List.mem_cons_of_mem a hb, rfl⟩

/-- Among some alternatives the furthest point is that of one of them, and none leaves less. -/
theorem exists_furthestOf_eq {as : List (Alternative α)} (h : as ≠ []) :
    ∃ a ∈ as, furthestOf none as = some a.rest ∧
      ∀ b ∈ as, a.rest.byteLength ≤ b.rest.byteLength := by
  obtain ⟨a, as, rfl⟩ := List.exists_cons_of_ne_nil h
  obtain ⟨r, hr, hmem, hle, hall⟩ := furthestOf_some a.rest as
  have hleast : ∀ b ∈ a :: as, r.byteLength ≤ b.rest.byteLength :=
    List.forall_mem_cons.mpr ⟨hle, hall⟩
  rcases hmem with rfl | ⟨b, hb, rfl⟩
  · exact ⟨a, List.mem_cons_self, hr, hleast⟩
  · exact ⟨b, List.mem_cons_of_mem a hb, hr, hleast⟩

/-- What leaves least has taken most. -/
theorem mostConsumed_eq (input : Text) {as : List (Alternative α)} {a : Alternative α}
    (ha : a ∈ as) (hleast : ∀ b ∈ as, a.rest.byteLength ≤ b.rest.byteLength) :
    mostConsumed input as = a.consumed input := by
  have hmax : (as.map (·.consumed input)).max? = some (a.consumed input) := by
    rw [List.max?_eq_some_iff]
    refine ⟨List.mem_map_of_mem ha, ?_⟩
    simp only [List.mem_map, forall_exists_index, and_imp, forall_apply_eq_imp_iff₂]
    intro b hb
    exact Nat.sub_le_sub_left (hleast b hb) _
  rw [mostConsumed, hmax, Option.getD_some]

/-- The point of `input` at which the shortest rest begins, or its start if there is no rest. -/
def pointOf (input : Text) : Option Text → Location
  | some rest => .ofRest input rest
  | none => .locate input 0

def endError (input : Text) : Option Text → ParseError
  | some rest => .incomplete (.ofRest input rest) rest
  | none => .noParse (.locate input 0)

@[simp] theorem location_endError (input : Text) (furthest : Option Text) :
    (endError input furthest).location = pointOf input furthest := by
  cases furthest <;> rfl

theorem pointOf_furthestOf (input : Text) (as : List (Alternative α)) :
    pointOf input (furthestOf none as) = .locate input (mostConsumed input as) := by
  rcases eq_or_ne as [] with rfl | hne
  · rfl
  · obtain ⟨a, ha, hfurthest, hleast⟩ := exists_furthestOf_eq hne
    rw [hfurthest, mostConsumed_eq input ha hleast]
    rfl

/-! ### Steps of a run -/

section Select

variable {input : Text} {o : Options} {examined : ℕ} {furthest : Option Text}
  {earlier c : List Call} {a : Alternative α} {tail : Unit → Alternatives α}

theorem select_of_not_accepts (hallows : o.Allows (examined + 1)) (ha : ¬o.accepts a) :
    select input o examined furthest earlier (next c a tail) =
      select input o (examined + 1) (some (shorterRest furthest a.rest)) (earlier ++ c)
        (tail ()) := by
  rw [Options.accepts] at ha
  simp only [select, Options.filter_eq_none hallows]
  exact if_neg ha

theorem select_of_accepts (hallows : o.Allows (examined + 1)) (ha : o.accepts a) :
    select input o examined furthest earlier (next c a tail) =
      ⟨some (.ok a.value), examined + 1, earlier ++ c⟩ := by
  rw [Options.accepts] at ha
  simp only [select, Options.filter_eq_none hallows]
  exact if_pos ha

theorem select_of_limit {limit : UInt64} (hlimit : limit ∈ o.maxAlternatives)
    (hle : limit.toNat ≤ examined) :
    select input o examined furthest earlier (next c a tail) =
      ⟨some (.error (.limitReached limit (pointOf input furthest))), examined + 1,
        earlier ++ c⟩ := by
  simp only [select, Options.filter_eq_some hlimit hle]
  cases furthest <;> rfl

theorem select_exhausted :
    select input o examined furthest earlier (exhausted c : Alternatives α) =
      ⟨some (.error (endError input furthest)), examined, earlier ++ c⟩ := by
  cases furthest <;> rfl

/-- A run goes past the alternatives that are within the limit and not acceptable. -/
theorem select_skip (hn : n ≤ s.toList.length) (hallows : o.Allows (examined + n))
    (hnone : ∀ a ∈ s.toList.take n, ¬o.accepts a) :
    select input o examined furthest earlier s =
      select input o (examined + n) (furthestOf furthest (s.toList.take n))
        (earlier ++ (pull n fun _ => s).calls) (s.skip n) := by
  induction n generalizing s examined furthest earlier with
  | zero => simp [furthestOf, pull]
  | succ n ih =>
      cases s with
      | exhausted c => exact absurd hn (Nat.not_succ_le_zero n)
      | cutOff c => exact absurd hn (Nat.not_succ_le_zero n)
      | next c a tail =>
          rw [toList, List.take_succ_cons, List.forall_mem_cons] at hnone
          have hfirst : o.Allows (examined + 1) := hallows.mono (by omega)
          have hlater : o.Allows (examined + 1 + n) := hallows.mono (by omega)
          rw [select_of_not_accepts hfirst hnone.1,
            ih (Nat.le_of_succ_le_succ hn) hlater hnone.2, skip_succ_next, toList,
            List.take_succ_cons, pull, Nat.add_assoc, Nat.add_comm 1 n, List.append_assoc]
          rfl

/-- An error is found behind alternatives that are all examined and not acceptable: at their end, or
at the limit. -/
theorem select_error_cases {e : ParseError}
    (h : (select input o examined furthest earlier s).result = some (.error e)) :
    (s.ends ∧ (∀ a ∈ s.toList, ¬o.accepts a) ∧
      e = endError input (furthestOf furthest s.toList)) ∨
    ∃ limit ∈ o.maxAlternatives, limit.toNat - examined < s.toList.length ∧
      e = .limitReached limit
        (pointOf input (furthestOf furthest (s.toList.take (limit.toNat - examined)))) := by
  induction s generalizing examined furthest earlier with
  | exhausted c =>
      rw [select_exhausted] at h
      obtain rfl : endError input furthest = e := by simpa using h
      exact .inl ⟨rfl, fun a ha => absurd ha List.not_mem_nil, rfl⟩
  | cutOff c => simp [select] at h
  | next c a tail ih =>
      rw [toList]
      rcases o.examine_cases examined a with ⟨hallows, ha⟩ | ⟨hallows, ha⟩ | ⟨limit, hlimit, hle⟩
      · rw [select_of_accepts hallows ha] at h
        simp at h
      · rw [select_of_not_accepts hallows ha] at h
        rcases ih () h with ⟨hends, hnone, he⟩ | ⟨limit, hlimit, hlt, he⟩
        · exact .inl ⟨hends, List.forall_mem_cons.mpr ⟨ha, hnone⟩, he⟩
        · -- This alternative is within the limit, so it is one of those that the limit admits.
          have hfirst := hallows limit hlimit
          have hsucc : limit.toNat - examined = limit.toNat - (examined + 1) + 1 := by omega
          refine .inr ⟨limit, hlimit, ?_, ?_⟩
          · rw [hsucc]
            exact Nat.succ_lt_succ hlt
          · rw [hsucc, List.take_succ_cons]
            exact he
      · rw [select_of_limit hlimit hle] at h
        obtain rfl : ParseError.limitReached limit (pointOf input furthest) = e := by
          simpa using h
        refine .inr ⟨limit, hlimit, ?_, ?_⟩
        · rw [Nat.sub_eq_zero_of_le hle]
          exact Nat.zero_lt_succ _
        · rw [Nat.sub_eq_zero_of_le hle]
          rfl

/-- A location in an error is worked out from a rest that was examined, unless it is the start. -/
theorem location_of_select_error {Q : Text → Prop} {s : Alternatives α} {e : ParseError}
    (hfurthest : ∀ r ∈ furthest, Q r) (hs : ∀ a ∈ s.toList, Q a.rest)
    (h : (select input o examined furthest earlier s).result = some (.error e)) :
    e.location = .locate input 0 ∨ ∃ r, Q r ∧ e.location = .ofRest input r := by
  have hpoint : ∀ as ⊆ s.toList, pointOf input (furthestOf furthest as) = .locate input 0 ∨
      ∃ r, Q r ∧ pointOf input (furthestOf furthest as) = .ofRest input r := by
    intro as has
    cases hof : furthestOf furthest as with
    | none => exact .inl rfl
    | some r =>
        have hr := furthestOf_induction hfurthest (fun a ha => hs a (has ha)) r hof
        exact .inr ⟨r, hr, rfl⟩
  rcases select_error_cases h with ⟨-, -, rfl⟩ | ⟨limit, -, -, rfl⟩
  · rw [location_endError]
    exact hpoint s.toList (List.Subset.refl _)
  · exact hpoint _ (List.take_subset _ _)

end Select

end Alternatives

namespace Parser

open Backtrack.Alternatives

variable {α : Type} (p : Parser α) (o : Options) (input : Text)

/-- A run that goes past `n` alternatives continues with what stands behind them. -/
theorem run_eq_select_skip {n : ℕ} (hn : n ≤ ((p input).alternatives ()).toList.length)
    (hallows : o.Allows n)
    (hnone : ∀ a ∈ ((p input).alternatives ()).toList.take n, ¬o.accepts a) :
    p.run o input =
      (((p input).alternatives ()).skip n).select input o n
        (furthestOf none (((p input).alternatives ()).toList.take n))
        ((p input).pull n).calls := by
  have hskip : ((p input).alternatives ()).select input o 0 none (p input).calls = _ :=
    select_skip hn (by rwa [Nat.zero_add]) hnone
  rw [Nat.zero_add] at hskip
  exact hskip

theorem calls_pull_succ {n : ℕ} (hn : n ≤ ((p input).alternatives ()).toList.length) :
    ((p input).pull (n + 1)).calls =
      ((p input).pull n).calls ++ (((p input).alternatives ()).skip n).nextCalls := by
  have hcalls := Alternatives.calls_pull_succ hn
  simp only [Opening.pull, List.append_assoc]
  exact congrArg ((p input).calls ++ ·) hcalls

/-- The first acceptable alternative, if it is within the limit, is the result. -/
theorem run_of_accepts {i : ℕ} {a : Alternative α}
    (ha : ((p input).alternatives ()).toList[i]? = some a) (haccepts : o.accepts a)
    (hnone : ∀ b ∈ ((p input).alternatives ()).toList.take i, ¬o.accepts b)
    (hallows : o.Allows (i + 1)) :
    p.run o input = ⟨some (.ok a.value), i + 1, ((p input).pull (i + 1)).calls⟩ := by
  have hi : i ≤ ((p input).alternatives ()).toList.length :=
    (List.getElem?_eq_some_iff.mp ha).1.le
  obtain ⟨c, tail, hskip⟩ := exists_skip_eq_next ha
  rw [run_eq_select_skip p o input hi (hallows.mono (Nat.le_succ i)) hnone, hskip,
    select_of_accepts hallows haccepts, calls_pull_succ p input hi, hskip]
  rfl

/-- With no acceptable alternative within the limit, the alternative behind the limit is pulled
and not looked at. -/
theorem run_of_limit {limit : UInt64} (hlimit : limit ∈ o.maxAlternatives)
    (hnone : ∀ b ∈ ((p input).alternatives ()).toList.take limit.toNat, ¬o.accepts b)
    (hlt : limit.toNat < ((p input).alternatives ()).toList.length) :
    p.run o input =
      ⟨some (.error (.limitReached limit (.locate input
        (mostConsumed input (((p input).alternatives ()).toList.take limit.toNat))))),
        limit.toNat + 1, ((p input).pull (limit.toNat + 1)).calls⟩ := by
  have hallows : o.Allows limit.toNat := by
    intro limit' hlimit'
    rw [Option.mem_unique hlimit hlimit']
  obtain ⟨c, tail, hskip⟩ := exists_skip_eq_next (List.getElem?_eq_getElem hlt)
  rw [run_eq_select_skip p o input hlt.le hallows hnone, hskip, select_of_limit hlimit le_rfl,
    pointOf_furthestOf, calls_pull_succ p input hlt.le, hskip]
  rfl

/-- With no acceptable alternative at all, the run sees the end of the alternatives. -/
theorem run_of_ends (hends : ((p input).alternatives ()).ends)
    (hnone : ∀ b ∈ ((p input).alternatives ()).toList, ¬o.accepts b)
    (hallows : o.Allows ((p input).alternatives ()).toList.length) :
    p.run o input =
      ⟨some (.error (endError input (furthestOf none ((p input).alternatives ()).toList))),
        ((p input).alternatives ()).toList.length,
        ((p input).pull (((p input).alternatives ()).toList.length + 1)).calls⟩ := by
  obtain ⟨c, hskip⟩ := exists_skip_eq_exhausted hends
  have htake : ∀ b ∈ ((p input).alternatives ()).toList.take
      ((p input).alternatives ()).toList.length, ¬o.accepts b := by
    rwa [List.take_length]
  rw [run_eq_select_skip p o input le_rfl hallows htake, hskip, select_exhausted,
    List.take_length, calls_pull_succ p input le_rfl, hskip]
  rfl

/-- If any rest will do, the first alternative decides, and nothing is done beyond it. -/
theorem run_of_not_requireComplete {o : Options} (h : o.requireComplete = false)
    (hallows : o.Allows 1) :
    (∀ e, (p.run o input).result = some (.error e) → e = .noParse (.locate input 0)) ∧
      (p.run o input).pulled ≤ 1 ∧ (p.run o input).calls = ((p input).pull 1).calls := by
  have hrun : p.run o input =
      ((p input).alternatives ()).select input o 0 none (p input).calls := rfl
  have hpull : ((p input).pull 1).calls =
      (p input).calls ++ ((p input).alternatives ()).nextCalls := by
    rw [calls_pull_succ p input (Nat.zero_le _), skip_zero]
    simp [Opening.pull, pull]
  rw [hrun, hpull]
  cases (p input).alternatives () with
  | exhausted c =>
      rw [select_exhausted]
      refine ⟨fun e he => ?_, Nat.zero_le 1, rfl⟩
      obtain rfl : endError input none = e := by simpa using he
      rfl
  | cutOff c => exact ⟨fun e he => by simp [select] at he, Nat.zero_le 1, rfl⟩
  | next c a tail =>
      have haccepts : o.accepts a := by simp [Options.accepts, h]
      rw [select_of_accepts hallows haccepts]
      exact ⟨fun e he => by simp at he, le_rfl, rfl⟩

/-- **The contract of a run**, for the alternatives in order and a limit that may be absent.
The first acceptable alternative within the limit is the result, and no later one is pulled.
Otherwise, if there are more alternatives than the limit, one beyond it is pulled and the error
is located at the furthest point of those within. Otherwise all are pulled: without any, the error
is at the start; else it is at the furthest point of all, and the rest behind this point remains.
If any rest is acceptable and the limit is not zero, a run fails only for lack of alternatives,
and a run for the first alternative pulls no second one. -/
theorem run_contract (p : Parser α) (o : Options) (input : Text) :
    let as := ((p input).alternatives ()).toList
    (∀ i a, as[i]? = some a → o.accepts a → (∀ b ∈ as.take i, ¬o.accepts b) →
      o.Allows (i + 1) →
      p.run o input = ⟨some (.ok a.value), i + 1, ((p input).pull (i + 1)).calls⟩) ∧
    (∀ limit ∈ o.maxAlternatives, (∀ b ∈ as.take limit.toNat, ¬o.accepts b) →
      limit.toNat < as.length →
      p.run o input =
        ⟨some (.error (.limitReached limit
          (.locate input (mostConsumed input (as.take limit.toNat))))),
          limit.toNat + 1, ((p input).pull (limit.toNat + 1)).calls⟩) ∧
    (((p input).alternatives ()).ends → as = [] →
      p.run o input =
        ⟨some (.error (.noParse (.locate input 0))), 0, ((p input).pull 1).calls⟩) ∧
    (((p input).alternatives ()).ends → as ≠ [] → (∀ b ∈ as, ¬o.accepts b) →
      o.Allows as.length →
      ∃ a ∈ as, a.consumed input = mostConsumed input as ∧
        p.run o input =
          ⟨some (.error (.incomplete (.locate input (mostConsumed input as)) a.rest)),
            as.length, ((p input).pull (as.length + 1)).calls⟩ ∧
        ((∀ b ∈ as, b.rest <:+ input) →
          ∃ taken, taken ++ a.rest = input ∧ taken.byteLength = mostConsumed input as)) ∧
    (o.requireComplete = false → o.Allows 1 →
      ∀ e, (p.run o input).result = some (.error e) → e = .noParse (.locate input 0)) ∧
    (p.runFirst input).pulled ≤ 1 ∧ (p.runFirst input).calls = ((p input).pull 1).calls := by
  intro as
  have hunlimited : Options.partially.Allows 1 :=
    fun limit hlimit => absurd hlimit (Option.not_mem_none limit)
  refine ⟨fun i a ha haccepts hnone hallows => run_of_accepts p o input ha haccepts hnone hallows,
    fun limit hlimit hnone hlt => run_of_limit p o input hlimit hnone hlt, ?_, ?_,
    fun h hallows => (run_of_not_requireComplete p input h hallows).1,
    (run_of_not_requireComplete p input (o := .partially) rfl hunlimited).2⟩
  · intro hends hempty
    have hempty' : ((p input).alternatives ()).toList = [] := hempty
    have hrun := run_of_ends p o input hends (by simp [hempty']) (by simp [Options.Allows, hempty'])
    rwa [hempty'] at hrun
  · intro hends hne hnone hallows
    obtain ⟨a, ha, hfurthest, hleast⟩ := exists_furthestOf_eq hne
    have hmost := mostConsumed_eq input ha hleast
    refine ⟨a, ha, hmost.symm, ?_, fun hsuffix => ?_⟩
    · rw [run_of_ends p o input hends hnone hallows, hfurthest, hmost]
      rfl
    · rw [hmost]
      exact Alternative.exists_append_eq_of_suffix (hsuffix a ha)

/-- Three alternatives, none of which is complete: a limit of two is passed by the third one, a
limit of three is not. On a shorter text the first alternative is complete. -/
theorem run_contract_aab :
    let p : Parser Text := (literal ['a', 'a']).or ((literal ['a']).or ((literal []).probe "none"))
    let t : Text := ['a', 'a', 'b']
    let as := ((p t).alternatives ()).toList
    ((∀ b ∈ as.take 2, ¬(⟨true, some 2⟩ : Options).accepts b) ∧ 2 < as.length ∧
      p.run ⟨true, some 2⟩ t =
        ⟨some (.error (.limitReached 2 ⟨2, 1, 3⟩)), 3, [⟨"none", t⟩]⟩) ∧
    (((p t).alternatives ()).ends ∧ as ≠ [] ∧ (∀ b ∈ as, ¬(⟨true, some 3⟩ : Options).accepts b) ∧
      (⟨true, some 3⟩ : Options).Allows as.length ∧ (∀ b ∈ as, b.rest <:+ t) ∧
      p.run ⟨true, some 3⟩ t =
        ⟨some (.error (.incomplete ⟨2, 1, 3⟩ ['b'])), 3, [⟨"none", t⟩]⟩) ∧
    p.run {} ['a', 'a'] = ⟨some (.ok ['a', 'a']), 1, []⟩ ∧
    (fail : Parser Text).run {} t = ⟨some (.error (.noParse ⟨0, 1, 1⟩)), 0, []⟩ := by
  intro p t as
  have hlimit : (∀ b ∈ as.take 2, ¬(⟨true, some 2⟩ : Options).accepts b) ∧ 2 < as.length := by
    decide
  have hall : ((p t).alternatives ()).ends ∧ as ≠ [] ∧
      (∀ b ∈ as, ¬(⟨true, some 3⟩ : Options).accepts b) ∧ (∀ b ∈ as, b.rest <:+ t) := by
    decide
  have hallows : (⟨true, some 3⟩ : Options).Allows as.length := by
    intro limit h
    obtain rfl := Option.some.inj h
    decide
  obtain ⟨hends, hne, hnone, hsuffix⟩ := hall
  refine ⟨⟨hlimit.1, hlimit.2, ?_⟩, ⟨hends, hne, hnone, hallows, hsuffix, ?_⟩, ?_, ?_⟩
  · exact (run_contract p ⟨true, some 2⟩ t).2.1 2 rfl hlimit.1 hlimit.2
  · obtain ⟨a, ha, hmost, hrun, -⟩ :=
      (run_contract p ⟨true, some 3⟩ t).2.2.2.1 hends hne hnone hallows
    have hrest : ∀ b ∈ as, b.consumed t = mostConsumed t as → b.rest = ['b'] := by decide
    rw [hrun, hrest a ha hmost]
    rfl
  · exact (run_contract p {} ['a', 'a']).1 0 ⟨['a', 'a'], []⟩ rfl rfl (by decide)
      (by simp [Options.Allows])
  · exact (run_contract fail {} t).2.2.1 rfl rfl

end Parser

end Backtrack
