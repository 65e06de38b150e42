import Backtrack.Proofs.Calls
import Backtrack.Proofs.Demand
import Backtrack.Session

/-!
Sequences that are open at once do not disturb each other. A step leaves every sequence alone but
the one that it works on or opens, so a sequence stands where its parser would stand if it had been
started alone, on the text that the sequence was opened on, and pulled as often. What it answers
and calls next is read off from there: the alternatives in order, then the end as often as one
asks, without any further call.
-/

namespace Backtrack

namespace Alternatives

variable {α : Type}

/-- What is left after a number of pulls. The pull that finds the end leaves a sequence that stays
at its end and calls nothing. -/
def afterPulls : ℕ → Alternatives α → Alternatives α
  | 0, s => s
  | _ + 1, exhausted _ => exhausted []
  | _ + 1, cutOff _ => exhausted []
  | n + 1, next _ _ tail => afterPulls n (tail ())

@[simp] theorem afterPulls_zero (s : Alternatives α) : afterPulls 0 s = s := by
  cases s <;> rfl

theorem afterPulls_succ (n : ℕ) (s : Alternatives α) :
    afterPulls (n + 1) s = afterPulls 1 (afterPulls n s) := by
  induction n generalizing s with
  | zero => simp
  | succ n ih =>
      cases s with
      | exhausted c => rfl
      | cutOff c => rfl
      | next c a tail => exact ih (tail ())

@[simp] theorem toList_afterPulls (n : ℕ) (s : Alternatives α) :
    (afterPulls n s).toList = s.toList.drop n := by
  induction n generalizing s with
  | zero => simp
  | succ n ih =>
      cases s with
      | exhausted c => rfl
      | cutOff c => rfl
      | next c a tail => exact ih (tail ())

/-- The calls of one pull are what this pull adds to the calls of the pulls before it. -/
theorem calls_pull_succ_eq (n : ℕ) (s : Unit → Alternatives α) :
    (pull (n + 1) s).calls = (pull n s).calls ++ (afterPulls n (s ())).nextCalls := by
  induction n generalizing s with
  | zero =>
      simp only [pull]
      cases s () <;> simp [nextCalls]
  | succ n ih =>
      rw [pull, pull]
      cases s () with
      | exhausted c => simp [afterPulls, nextCalls]
      | cutOff c => simp [afterPulls, nextCalls]
      | next c a tail => simp only [ih tail, afterPulls, List.append_assoc]

/-- The calls of all pulls are those of some pulls, and of all that are left after them. -/
theorem allCalls_eq_calls_pull_append (n : ℕ) (s : Unit → Alternatives α) :
    (s ()).allCalls = (pull n s).calls ++ (afterPulls n (s ())).allCalls := by
  induction n generalizing s with
  | zero => simp [pull]
  | succ n ih =>
      rw [pull]
      cases s () with
      | exhausted c => simp [afterPulls, allCalls]
      | cutOff c => simp [afterPulls, allCalls]
      | next c a tail => simp only [allCalls, ih tail, afterPulls, List.append_assoc]

theorem afterPulls_of_length_lt {n : ℕ} {s : Alternatives α} (h : s.toList.length < n) :
    afterPulls n s = exhausted [] := by
  induction s generalizing n with
  | exhausted c =>
      obtain ⟨n, rfl⟩ := Nat.exists_eq_succ_of_ne_zero (Nat.ne_of_gt h)
      rfl
  | cutOff c =>
      obtain ⟨n, rfl⟩ := Nat.exists_eq_succ_of_ne_zero (Nat.ne_of_gt h)
      rfl
  | next c a tail ih =>
      obtain ⟨n, rfl⟩ := Nat.exists_eq_succ_of_ne_zero (Nat.ne_of_gt (Nat.zero_lt_of_lt h))
      exact ih () (Nat.lt_of_succ_lt_succ h)

end Alternatives

namespace Opening

variable {α : Type}

/-- The text that a sequence on `t` leaves over at last after `n` pulls. -/
def restAfter (o : Opening α) (t : Text) (n : ℕ) : Text :=
  (((o.alternatives ()).toList.take n).getLast?.map (·.rest)).getD t

theorem drain_eq_allCalls (o : Opening α) : o.drain = o.allCalls := by
  have hall := Alternatives.allCalls_eq_calls_pull_append
    ((o.alternatives ()).toList.length + 1) o.alternatives
  rw [Alternatives.afterPulls_of_length_lt (Nat.lt_succ_self _)] at hall
  rw [drain, Opening.pull, allCalls, hall]
  simp [Alternatives.allCalls]

end Opening

namespace Session

variable {α : Type} {s : Session α} {id : ℕ} {o : Opening α} {t : Text} {n : ℕ}

/-! ### Steps and the sequences they are about -/

def Step.opens (id : ℕ) : Step → Bool
  | start id' _ => id' = id
  | startOnRest id' _ _ => id' = id
  | _ => false

/-- The step gives up the sequence of that number, by counting what is left of it or by dropping
it. -/
def Step.closes (id : ℕ) (step : Step) : Bool := step = count id || step = drop id

def after (s : Session α) (steps : List Step) : Session α :=
  steps.foldl (fun s step => (s.perform step).session) s

@[simp] theorem after_nil (s : Session α) : s.after [] = s := rfl

@[simp] theorem after_cons (s : Session α) (step : Step) (steps : List Step) :
    s.after (step :: steps) = (s.perform step).session.after steps := rfl

/-- In the session, a step opens a sequence of the number `id` with the parser at a position, on
the whole input or on what another sequence leaves over, and answers this. -/
inductive Starts (s : Session α) : Step → (id parser : ℕ) → Text → Answer α → Prop
  | start (id p : ℕ) : Starts s (.start id p) id p s.input .started
  | startOnRest {earlier : ℕ} {q : OpenSequence α} (id p : ℕ) (h : s.sequence? earlier = some q) :
      Starts s (.startOnRest id p earlier) id p q.rest (.startedOnRest q.rest.byteLength)

/-! ### What a step does to a sequence -/

@[simp] theorem sequence?_put (s : Session α) (id : ℕ) (q : OpenSequence α) :
    (s.put id q).sequence? id = some q := by
  simp [put, sequence?]

theorem sequence?_put_of_ne {id' : ℕ} (h : id ≠ id') (q : OpenSequence α) :
    (s.put id' q).sequence? id = s.sequence? id := by
  have hfilter : ∀ l : List (ℕ × OpenSequence α),
      (l.filter (·.1 != id')).lookup id = l.lookup id := by
    intro l
    induction l with
    | nil => rfl
    | cons e l ih => grind
  have hne : (id == id') = false := beq_false_of_ne h
  rw [sequence?, put, List.lookup_cons, hne]
  exact hfilter s.sequences

theorem sequence?_startOn_of_ne {id' : ℕ} (h : id ≠ id') (p : ℕ) (t : Text) (answer : Answer α) :
    (s.startOn id' p t answer).session.sequence? id = s.sequence? id := by
  unfold startOn
  split
  · rfl
  · exact sequence?_put_of_ne h _

/-- A step leaves alone every sequence that it neither opens nor works on. -/
theorem sequence?_perform_of_ne {step : Step} (hopens : ¬step.opens id)
    (hcloses : ¬step.closes id) (hnext : step ≠ .next id) :
    (s.perform step).session.sequence? id = s.sequence? id := by
  simp only [Step.closes, Bool.or_eq_true, decide_eq_true_eq, not_or] at hcloses
  cases step with
  | start id' p =>
      have hne : id ≠ id' := fun h => hopens (by simp [Step.opens, h])
      exact sequence?_startOn_of_ne hne p _ _
  | startOnRest id' p earlier =>
      have hne : id ≠ id' := fun h => hopens (by simp [Step.opens, h])
      rw [perform]
      split
      · rfl
      · exact sequence?_startOn_of_ne hne p _ _
  | next id' =>
      have hne : id ≠ id' := fun h => hnext (h ▸ rfl)
      rw [perform]
      split
      · rename_i pending _
        cases pending () <;> exact sequence?_put_of_ne hne _
      · rfl
  | count id' =>
      have hne : id ≠ id' := fun h => hcloses.1 (h ▸ rfl)
      rw [perform]
      split
      · exact sequence?_put_of_ne hne _
      · rfl
  | drop id' =>
      have hne : id ≠ id' := fun h => hcloses.2 (h ▸ rfl)
      rw [perform]
      split
      · exact sequence?_put_of_ne hne _
      · rfl
  | forget p => rfl
  | run p options =>
      rw [perform]
      split <;> rfl

theorem drain_eq (n : ℕ) (earlier : List Call) (s : Alternatives α) :
    drain n earlier s = (n + s.toList.length, earlier ++ s.allCalls) := by
  induction s generalizing n earlier with
  | exhausted c => rfl
  | cutOff c => rfl
  | next c a tail ih =>
      simp only [drain, ih (), Alternatives.toList, Alternatives.allCalls, List.length_cons,
        List.append_assoc, Nat.add_assoc, Nat.add_comm 1]

/-! ### Where a sequence stands -/

/-- Sequence `id` stands where `o`, opened on `t`, stands after `n` pulls. -/
def Stands (s : Session α) (id : ℕ) (o : Opening α) (t : Text) (n : ℕ) : Prop :=
  ∃ pending, s.sequence? id = some ⟨o.restAfter t n, some pending⟩ ∧
    pending () = (o.alternatives ()).afterPulls n

/-- Sequence `id` was given up after `n` pulls of `o`, opened on `t`. Its rest is kept. -/
def GivenUp (s : Session α) (id : ℕ) (o : Opening α) (t : Text) (n : ℕ) : Prop :=
  s.sequence? id = some ⟨o.restAfter t n, none⟩

/-- A sequence that is opened does what opening its parser alone does. -/
theorem Starts.perform_eq {opening : Step} {p : ℕ} {parser : Parser α} {answer : Answer α}
    (h : s.Starts opening id p t answer) (hp : s.parser? p = some parser) :
    s.perform opening =
      ⟨answer, (parser t).calls, s.put id ⟨t, some (parser t).alternatives⟩⟩ := by
  cases h with
  | start => simp only [perform, startOn, hp]
  | startOnRest id p hq => simp only [perform, hq, startOn, hp]

theorem Starts.stands {opening : Step} {p : ℕ} {parser : Parser α} {answer : Answer α}
    (h : s.Starts opening id p t answer) (hp : s.parser? p = some parser) :
    (s.perform opening).session.Stands id (parser t) t 0 := by
  rw [h.perform_eq hp]
  refine ⟨(parser t).alternatives, ?_, (Alternatives.afterPulls_zero _).symm⟩
  rw [sequence?_put]
  rfl

theorem restAfter_succ_of_some {a : Alternative α} (h : (o.alternatives ()).toList[n]? = some a) :
    o.restAfter t (n + 1) = a.rest := by
  rw [Opening.restAfter, List.take_add_one, h]
  simp

theorem restAfter_succ_of_none (h : (o.alternatives ()).toList[n]? = none) :
    o.restAfter t (n + 1) = o.restAfter t n := by
  rw [Opening.restAfter, Opening.restAfter, List.take_add_one, h]
  simp

/-- A pull brings the alternative that comes next, and nothing behind the last one. -/
theorem Stands.next (h : s.Stands id o t n) :
    (s.perform (.next id)).answer = .pulled (o.alternatives ()).toList[n]? ∧
      (s.perform (.next id)).calls = ((o.alternatives ()).afterPulls n).nextCalls ∧
      (s.perform (.next id)).session.Stands id o t (n + 1) := by
  obtain ⟨pending, hq, hpending⟩ := h
  have hlist := Alternatives.toList_afterPulls n (o.alternatives ())
  have hsucc := Alternatives.afterPulls_succ n (o.alternatives ())
  have hhead : (o.alternatives ()).toList[n]? =
      ((o.alternatives ()).afterPulls n).toList.head? := by
    rw [hlist, List.head?_drop]
  simp only [perform, hq, hpending]
  cases hs : (o.alternatives ()).afterPulls n with
  | exhausted c =>
      rw [hs] at hhead hsucc
      refine ⟨by rw [hhead]; rfl, rfl, fun _ => .exhausted [], ?_, hsucc.symm⟩
      rw [restAfter_succ_of_none hhead]
      exact sequence?_put _ _ _
  | cutOff c =>
      rw [hs] at hhead hsucc
      refine ⟨by rw [hhead]; rfl, rfl, fun _ => .exhausted [], ?_, hsucc.symm⟩
      rw [restAfter_succ_of_none hhead]
      exact sequence?_put _ _ _
  | next c a tail =>
      rw [hs] at hhead hsucc
      refine ⟨by rw [hhead]; rfl, rfl, tail, ?_, ?_⟩
      · rw [restAfter_succ_of_some hhead]
        exact sequence?_put _ _ _
      · rw [hsucc]
        exact (Alternatives.afterPulls_zero _).symm

/-- To count is to pull what is left, and to give it up. -/
theorem Stands.count (h : s.Stands id o t n) :
    (s.perform (.count id)).answer = .counted ((o.alternatives ()).toList.length - n) ∧
      (s.perform (.count id)).calls = ((o.alternatives ()).afterPulls n).allCalls ∧
      (s.perform (.count id)).session.GivenUp id o t n := by
  obtain ⟨pending, hq, hpending⟩ := h
  simp only [perform, hq, hpending, drain_eq, Alternatives.toList_afterPulls, List.length_drop,
    Nat.zero_add, List.nil_append, true_and]
  exact sequence?_put _ _ _

theorem perform_drop {q : OpenSequence α} (h : s.sequence? id = some q) :
    s.perform (.drop id) = ⟨.dropped, [], s.put id ⟨q.rest, none⟩⟩ := by
  simp only [perform, h]

theorem Stands.drop (h : s.Stands id o t n) :
    (s.perform (.drop id)).session.GivenUp id o t n := by
  obtain ⟨pending, hq, -⟩ := h
  rw [perform_drop hq]
  exact sequence?_put _ _ _

theorem GivenUp.refuses (h : s.GivenUp id o t n) :
    s.perform (.next id) = s.refuse ∧ s.perform (.count id) = s.refuse := by
  rw [GivenUp] at h
  simp only [perform, h, and_self]

/-- What was given up comes back only if it is opened anew. -/
theorem GivenUp.perform (h : s.GivenUp id o t n) {step : Step} (hopens : ¬step.opens id) :
    (s.perform step).session.GivenUp id o t n := by
  by_cases hnext : step = .next id
  · rw [hnext, h.refuses.1]
    exact h
  by_cases hcount : step = .count id
  · rw [hcount, h.refuses.2]
    exact h
  by_cases hdrop : step = .drop id
  · rw [hdrop, perform_drop h]
    exact sequence?_put _ _ _
  · have hcloses : ¬step.closes id := by simp [Step.closes, hcount, hdrop]
    rw [GivenUp, sequence?_perform_of_ne hopens hcloses hnext]
    exact h

theorem GivenUp.after (h : s.GivenUp id o t n) {steps : List Step}
    (hopens : ∀ step ∈ steps, ¬step.opens id) : (s.after steps).GivenUp id o t n := by
  induction steps generalizing s with
  | nil => exact h
  | cons step steps ih =>
      rw [List.forall_mem_cons] at hopens
      exact ih (h.perform hopens.1) hopens.2

/-! ### Many steps -/

/-- How often the steps pull sequence `id`, up to the step that gives it up. -/
def pulls (id : ℕ) (steps : List Step) : ℕ := (steps.takeWhile (!·.closes id)).count (.next id)

theorem pulls_cons_of_closes {step : Step} (h : step.closes id) (steps : List Step) :
    pulls id (step :: steps) = 0 := by
  simp [pulls, h]

theorem pulls_cons_next (id : ℕ) (steps : List Step) :
    pulls id (.next id :: steps) = pulls id steps + 1 := by
  simp [pulls, Step.closes]

theorem pulls_cons_of_ne {step : Step} (h : ¬step.closes id) (hnext : step ≠ .next id)
    (steps : List Step) : pulls id (step :: steps) = pulls id steps := by
  simp [pulls, h, hnext]

/-- After any steps that do not open it anew, a sequence stands where its own pulls have brought
it, or was given up there. -/
theorem Stands.after (h : s.Stands id o t n) {steps : List Step}
    (hopens : ∀ step ∈ steps, ¬step.opens id) :
    ((∀ step ∈ steps, ¬step.closes id) → (s.after steps).Stands id o t (n + pulls id steps)) ∧
      ((∃ step ∈ steps, step.closes id) → (s.after steps).GivenUp id o t (n + pulls id steps)) := by
  induction steps generalizing s n with
  | nil => exact ⟨fun _ => h, fun ⟨_, hmem, _⟩ => absurd hmem List.not_mem_nil⟩
  | cons step steps ih =>
      rw [List.forall_mem_cons] at hopens
      simp only [List.forall_mem_cons, List.exists_mem_cons_iff, after_cons]
      by_cases hcloses : step.closes id
      · refine ⟨fun hnone => absurd hcloses hnone.1, fun _ => ?_⟩
        rw [pulls_cons_of_closes hcloses, Nat.add_zero]
        simp only [Step.closes, Bool.or_eq_true, decide_eq_true_eq] at hcloses
        rcases hcloses with rfl | rfl
        · exact h.count.2.2.after hopens.2
        · exact h.drop.after hopens.2
      · simp only [hcloses, Bool.false_eq_true, not_false_eq_true, true_and, false_or]
        by_cases hnext : step = .next id
        · subst hnext
          have hpulled := ih h.next.2.2 hopens.2
          rwa [Nat.add_assoc, Nat.add_comm 1, ← pulls_cons_next] at hpulled
        · have hstands : (s.perform step).session.Stands id o t n := by
            rw [Stands, sequence?_perform_of_ne hopens.1 hcloses hnext]
            exact h
          rw [pulls_cons_of_ne hcloses hnext]
          exact ih hstands hopens.2

/-- A sequence that has answered that it is at its end stays there: it answers so again and calls
nothing. -/
theorem Stands.ended (h : s.Stands id o t n) (hend : (o.alternatives ()).toList[n]? = none)
    {more : List Step} (hmore : ∀ step ∈ more, ¬step.opens id ∧ ¬step.closes id) :
    (((s.perform (.next id)).session.after more).perform (.next id)).answer = .pulled none ∧
      (((s.perform (.next id)).session.after more).perform (.next id)).calls = [] := by
  have hlength : (o.alternatives ()).toList.length < n + 1 + pulls id more := by
    have hle := List.getElem?_eq_none_iff.mp hend
    omega
  have hopens : ∀ step ∈ more, ¬step.opens id := fun step hstep => (hmore step hstep).1
  have hcloses : ∀ step ∈ more, ¬step.closes id := fun step hstep => (hmore step hstep).2
  have hagain := ((h.next.2.2.after hopens).1 hcloses).next
  refine ⟨?_, ?_⟩
  · rw [hagain.1, List.getElem?_eq_none (Nat.le_of_lt hlength)]
  · rw [hagain.2.1, Alternatives.afterPulls_of_length_lt hlength]
    rfl

/-- **Open sequences are independent.** In any session, let a step open a sequence, on the input
or on what another sequence leaves over, and let any steps follow that do not open it anew: steps
on other sequences, steps that open or give up others, steps that forget parsers, also the one
this sequence came from. Then the sequence answers and calls what its parser does alone, started
on the text that the sequence was opened on and pulled as often: at its opening, at the next pull,
and when the rest is counted. Once it has answered that it is at its end, every later pull answers
so and calls nothing. Once it was given up, only its rest is left. -/
theorem open_sequences_are_independent {s : Session α} {opening : Step} {id p : ℕ} {t : Text}
    {answer : Answer α} {parser : Parser α} (hstarts : s.Starts opening id p t answer)
    (hparser : s.parser? p = some parser) {steps : List Step}
    (hopens : ∀ step ∈ steps, ¬step.opens id) :
    let o := parser t
    let as := (o.alternatives ()).toList
    let n := pulls id steps
    let opened := s.perform opening
    let later := opened.session.after steps
    let pulled := later.perform (.next id)
    let counted := later.perform (.count id)
    let dropped := later.perform (.drop id)
    (opened.answer = answer ∧ opened.calls = o.calls) ∧
    (later.sequence? id).map (·.rest) = some (o.restAfter t n) ∧
    ((∀ step ∈ steps, ¬step.closes id) →
      (pulled.answer = .pulled as[n]? ∧
        (o.pull (n + 1)).calls = (o.pull n).calls ++ pulled.calls) ∧
      (counted.answer = .counted (as.length - n) ∧
        o.drain = (o.pull n).calls ++ counted.calls) ∧
      (pulled.answer = .pulled none →
        ∀ more : List Step, (∀ step ∈ more, ¬step.opens id ∧ ¬step.closes id) →
          let again := (pulled.session.after more).perform (.next id)
          again.answer = .pulled none ∧ again.calls = [])) ∧
    ((∃ step ∈ steps, step.closes id) →
      pulled = later.refuse ∧ counted = later.refuse) ∧
    dropped.answer = .dropped ∧ dropped.calls = [] := by
  intro o as n opened later pulled counted dropped
  have hopened : opened = ⟨answer, o.calls, s.put id ⟨t, some o.alternatives⟩⟩ :=
    hstarts.perform_eq hparser
  have hafter := (hstarts.stands hparser).after hopens
  rw [Nat.zero_add] at hafter
  obtain ⟨hstands, hgivenUp⟩ := hafter
  -- Whether or not the sequence was given up, it is there with its rest.
  have hrest : ∃ pending, later.sequence? id = some ⟨o.restAfter t n, pending⟩ := by
    by_cases hcloses : ∀ step ∈ steps, ¬step.closes id
    · obtain ⟨pending, hq, -⟩ := hstands hcloses
      exact ⟨some pending, hq⟩
    · exact ⟨none, hgivenUp (by simpa using hcloses)⟩
  obtain ⟨pending, hq⟩ := hrest
  have hdrop : dropped = ⟨.dropped, [], later.put id ⟨o.restAfter t n, none⟩⟩ := perform_drop hq
  refine ⟨?_, ?_, fun hcloses => ⟨⟨?_, ?_⟩, ⟨?_, ?_⟩, fun hend more hmore => ?_⟩, ?_, ?_⟩
  · rw [hopened]
    exact ⟨rfl, rfl⟩
  · rw [hq]
    rfl
  · exact (hstands hcloses).next.1
  · have hcalls := Alternatives.calls_pull_succ_eq n o.alternatives
    rw [Opening.pull, Opening.pull, List.append_assoc, (hstands hcloses).next.2.1]
    exact congrArg (o.calls ++ ·) hcalls
  · exact (hstands hcloses).count.1
  · have hcalls := Alternatives.allCalls_eq_calls_pull_append n o.alternatives
    rw [Opening.drain_eq_allCalls, Opening.pull, List.append_assoc, (hstands hcloses).count.2.1]
    exact congrArg (o.calls ++ ·) hcalls
  · have hnone : as[n]? = none := by
      have heq := (hstands hcloses).next.1.symm.trans hend
      simpa using heq
    exact (hstands hcloses).ended hnone hmore
  · exact fun hcloses => (hgivenUp hcloses).refuses
  · rw [hdrop]
    exact ⟨rfl, rfl⟩

/-- Two sequences of one parser, the second of them opened on what the first one leaves over. The
parser is forgotten, the first sequence is pulled and dropped, and its number is given to a
sequence of another parser, all between the pulls of the second one. -/
theorem open_sequences_are_independent_two :
    let parser : Parser Text :=
      ((Parser.literal ['a']).or ((Parser.literal []).probe "none")).probe "some"
    let other : Parser Text := (Parser.literal ['a']).probe "other"
    let s := (begin ['a', 'a'] [parser, other]).after [.start 7 0, .next 7]
    let opening : Step := .startOnRest 1 0 7
    let steps : List Step := [.forget 0, .next 1, .next 7, .drop 7, .start 7 1]
    let opened := s.perform opening
    let later := opened.session.after steps
    let pulled := later.perform (.next 1)
    let ended := (opened.session.after (steps ++ [.next 1])).perform (.next 1)
    let again := (ended.session.after [.next 7, .next 1]).perform (.next 1)
    let gone := (opened.session.after (steps ++ [.drop 1])).perform (.next 1)
    s.Starts opening 1 0 ['a'] (.startedOnRest 1) ∧ s.parser? 0 = some parser ∧
      (∀ step ∈ steps, ¬step.opens 1) ∧ (∀ step ∈ steps, ¬step.closes 1) ∧
      opened.calls = [⟨"some", ['a']⟩] ∧
      pulled.answer = .pulled (some ⟨[], ['a']⟩) ∧ pulled.calls = [⟨"none", ['a']⟩] ∧
      ended.answer = .pulled none ∧ (again.answer = .pulled none ∧ again.calls = []) ∧
      gone.answer = .unknown := by
  intro parser other s opening steps opened later pulled ended again gone
  have hstarts : s.Starts opening 1 0 ['a'] (.startedOnRest 1) :=
    .startOnRest (q := ⟨['a'], some _⟩) 1 0 rfl
  have hparser : s.parser? 0 = some parser := rfl
  have hopens : ∀ step ∈ steps, ¬step.opens 1 := by decide
  have hcloses : ∀ step ∈ steps, ¬step.closes 1 := by decide
  have hopens' : ∀ step ∈ steps ++ [.next 1], ¬step.opens 1 := by decide
  have hopens'' : ∀ step ∈ steps ++ [.drop 1], ¬step.opens 1 := by decide
  obtain ⟨⟨-, hopened⟩, -, hstands, -⟩ :=
    open_sequences_are_independent hstarts hparser hopens
  obtain ⟨⟨hpulled, hcalls⟩, -⟩ := hstands hcloses
  obtain ⟨-, -, hstands', -⟩ := open_sequences_are_independent hstarts hparser hopens'
  obtain ⟨⟨hended, -⟩, -, hfused⟩ := hstands' (by decide)
  obtain ⟨-, -, -, hgone, -⟩ := open_sequences_are_independent hstarts hparser hopens''
  refine ⟨hstarts, hparser, hopens, hcloses, hopened, hpulled, ?_, hended,
    hfused hended [.next 7, .next 1] (by decide), ?_⟩
  · exact (List.append_cancel_left hcalls).symm
  · exact congrArg Effect.answer (hgone (by decide)).1

end Session

end Backtrack
