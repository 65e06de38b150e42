import Backtrack.Proofs.Calls
import Backtrack.Proofs.Progress

/-!
Termination. If every reference inside a rule stands behind something that takes at least one
character, then each nested reference is followed on a shorter text. So a budget for references
that exceeds the length of the text is never spent: all larger budgets give one and the same
sequence, which comes to its end. Repetitions end in any case, also of grammars that match the
empty text, and a repetition counts no more iterations than it has taken bytes.

A sequence that ends under one budget is not enough, as the next larger budget might follow a
reference that was not followed before. So sequences are compared in pairs throughout, one for
each budget: `Opening.EndsAs` says that the two are the same and come to their end.
-/

namespace Backtrack

theorem Alternatives.bind_congr {α β : Type} {f g : Alternative α → Opening β}
    {s : Alternatives α} (h : ∀ a ∈ s.toList, f a = g a) : bind f s = bind g s := by
  induction s with
  | exhausted c => rfl
  | cutOff c => rfl
  | next c a tail ih =>
      rw [toList, List.forall_mem_cons] at h
      rw [bind_next, bind_next, h.1, ih () h.2]

namespace Opening

variable {α β : Type} {o o' : Opening α}

/-- The first of two sequences, which are the same, comes to its end without being cut off. -/
def EndsAs (o o' : Opening α) : Prop := o = o' ∧ (o.alternatives ()).ends

theorem endsAs_empty : (empty : Opening α).EndsAs empty := ⟨rfl, rfl⟩

theorem endsAs_single (v : α) (r : Text) : (single v r).EndsAs (single v r) := ⟨rfl, rfl⟩

theorem EndsAs.map (h : o.EndsAs o') (f : α → β) : (o.map f).EndsAs (o'.map f) := by
  obtain ⟨rfl, hends⟩ := h
  refine ⟨rfl, ?_⟩
  rw [Opening.map, Alternatives.ends_map, hends]

theorem EndsAs.append {later later' : Unit → Opening α} (h : o.EndsAs o')
    (hlater : (later ()).EndsAs (later' ())) : (o.append later).EndsAs (o'.append later') := by
  obtain ⟨rfl, hends⟩ := h
  obtain ⟨heq, hends'⟩ := hlater
  obtain rfl : later = later' := funext fun _ => heq
  refine ⟨rfl, ?_⟩
  rw [Opening.append, Alternatives.ends_append, hends, hends', Bool.and_self]

theorem EndsAs.bind {f f' : Alternative α → Opening β} (h : o.EndsAs o')
    (hf : ∀ a ∈ (o.alternatives ()).toList, (f a).EndsAs (f' a)) :
    (o.bind f).EndsAs (o'.bind f') := by
  obtain ⟨rfl, hends⟩ := h
  constructor
  · rw [Opening.bind, Opening.bind, Alternatives.bind_congr fun a ha => (hf a ha).1]
  · rw [Opening.bind, Alternatives.ends_bind, hends, Bool.true_and, List.all_eq_true]
    exact fun a ha => (hf a ha).2

end Opening

namespace Parser

open Backtrack.Opening

variable {α : Type} {p p' : Parser α} {b : Bounds}

theorem endsAs_stop (b : Bounds) (count : ℕ) (values : List α) (t : Text) :
    (if b.min ≤ count then Opening.single values t else .empty).EndsAs
      (if b.min ≤ count then Opening.single values t else .empty) := by
  split
  · exact endsAs_single values t
  · exact endsAs_empty

theorem endsAs_probe {t : Text} (h : (p t).EndsAs (p' t)) (label : String) :
    (p.probe label t).EndsAs (p'.probe label t) := by
  obtain ⟨heq, hends⟩ := h
  refine ⟨?_, hends⟩
  rw [probe, probe, heq]

/-- A repetition ends if the repeated parser does on every end of the text. -/
theorem endsAs_repeatFrom (hrest : ∀ t, (p t).listing.LeavesEndOf t) {t : Text}
    (h : ∀ u, u <:+ t → (p u).EndsAs (p' u)) (b : Bounds) (count : ℕ) :
    (p.repeatFrom b count t).EndsAs (p'.repeatFrom b count t) := by
  induction hn : t.length using Nat.strong_induction_on generalizing count t with
  | _ n ih =>
      have hstop := endsAs_stop b count ([] : List α) t
      unfold repeatFrom
      dsimp only
      split
      · exact hstop
      · refine ((h t List.suffix_rfl).bind fun a ha => ?_).append hstop
        split
        · rename_i hlt
          refine (ih _ (hn ▸ hlt) (fun u hu => h u ?_) (count + 1) rfl).map _
          exact hu.trans (hrest t a ha)
        · exact endsAs_stop b (count + 1) [a.value] a.rest

/-! ### The counter of a repetition -/

/-- The calls of `repeatFrom` that a repetition of `p` on `t` leads to: with how many earlier
iterations, and on what text. -/
inductive Repeats (p : Parser α) (b : Bounds) (t : Text) : ℕ → Text → Prop
  | start : Repeats p b t 0 t
  | again {count : ℕ} {r : Text} {a : Alternative α} (h : Repeats p b t count r)
      (hmax : b.max.any (· ≤ count) = false) (ha : a ∈ ((p r).alternatives ()).toList)
      (hlt : a.rest.length < r.length) : Repeats p b t (count + 1) a.rest

/-- Each iteration that is followed by another call takes at least one byte. -/
theorem Repeats.count_add_le (hrest : ∀ t, (p t).listing.LeavesEndOf t) {t r : Text} {count : ℕ}
    (h : p.Repeats b t count r) : count + r.byteLength ≤ t.byteLength := by
  induction h with
  | start => rw [Nat.zero_add]
  | @again count r a h hmax ha hlt ih =>
      have hbytes := (Text.byteLength_lt_iff_of_suffix (hrest r a ha)).mpr hlt
      omega

/-- The runs of `repeatFrom`, with a watcher at every call who is shown the counter and the text
and may replace what the call gives. -/
def watchedFrom (watch : ℕ → Text → Opening (List α) → Opening (List α)) (p : Parser α)
    (b : Bounds) (count : ℕ) (t : Text) : Opening (List α) :=
  let stop : Unit → Opening (List α) := fun _ => if b.min ≤ count then .single [] t else .empty
  watch count t <|
    if b.max.any (· ≤ count) then stop ()
    else
      Opening.append
        ((p t).bind fun a =>
          if a.rest.length < t.length then
            (watchedFrom watch p b (count + 1) a.rest).map (a.value :: ·)
          else if b.min ≤ count + 1 then .single [a.value] a.rest
          else .empty)
        stop
termination_by t.length

/-- No call is missing in `Repeats`: a watcher who lets these calls pass lets all pass. -/
theorem watchedFrom_eq {watch : ℕ → Text → Opening (List α) → Opening (List α)} {t : Text}
    (hwatch : ∀ count r, p.Repeats b t count r → ∀ runs, watch count r runs = runs) {count : ℕ}
    {r : Text} (hcall : p.Repeats b t count r) :
    watchedFrom watch p b count r = p.repeatFrom b count r := by
  induction hn : r.length using Nat.strong_induction_on generalizing count r with
  | _ n ih =>
      unfold watchedFrom repeatFrom
      dsimp only
      rw [hwatch count r hcall]
      split
      · rfl
      · rename_i hmax
        rw [Bool.not_eq_true] at hmax
        congr 1
        unfold Opening.bind
        rw [Alternatives.bind_congr fun a ha => ?_]
        split
        · rename_i hlt
          rw [ih _ (hn ▸ hlt) (hcall.again hmax ha hlt) rfl]
        · rfl

end Parser

namespace Grammar

open Backtrack.Opening

/-- Every reference to a rule stands to the right of a part that takes something by its form: in a
sequence of two or more, in a `bind`, and in what is made up of these, such as lists with
separators and brackets. -/
inductive Guarded : Grammar → Prop
  | any : Guarded any
  | satisfy (accepts : Char → Bool) : Guarded (satisfy accepts)
  | literal (s : Text) : Guarded (literal s)
  | succeed (v : Value) : Guarded (succeed v)
  | fail : Guarded fail
  | endOfInput : Guarded endOfInput
  | bind {p : Grammar} {f : Value → Grammar} (hp : Guarded p) (hf : ∀ v, Guarded (f v)) :
      Guarded (bind p f)
  | bindBehind {p : Grammar} {f : Value → Grammar} (hp : Guarded p) (h : p.Consumes) :
      Guarded (bind p f)
  | and {p q : Grammar} (hp : Guarded p) (hq : Guarded q) : Guarded (and p q)
  | andBehind {p q : Grammar} (hp : Guarded p) (h : p.Consumes) : Guarded (and p q)
  | or {p q : Grammar} (hp : Guarded p) (hq : Guarded q) : Guarded (or p q)
  | choice {ps : List Grammar} (h : ∀ p ∈ ps, Guarded p) : Guarded (choice ps)
  | sequence {ps : List Grammar} (h : ∀ p ∈ ps, Guarded p) : Guarded (sequence ps)
  | sequenceBehind {ps behind : List Grammar} {p : Grammar} (hps : ∀ q ∈ ps, Guarded q)
      (hp : Guarded p) (h : p.Consumes) : Guarded (sequence (ps ++ p :: behind))
  | map {p : Grammar} {f : Value → Value} (hp : Guarded p) : Guarded (map p f)
  | repeated {p : Grammar} (b : Bounds) (hp : Guarded p) : Guarded (repeated p b)
  | optional {p : Grammar} (hp : Guarded p) : Guarded (optional p)
  | delayed {p : Unit → Grammar} (hp : Guarded (p ())) : Guarded (delayed p)
  | probe {label : String} {p : Grammar} (hp : Guarded p) : Guarded (probe label p)

variable {parsers parsers' : String → Parser Value} {t : Text}

theorem endsAs_satisfy (accepts : Char → Bool) (t : Text) :
    ((satisfy accepts).parser parsers t).EndsAs ((satisfy accepts).parser parsers' t) := by
  refine ⟨rfl, ?_⟩
  cases t with
  | nil => rfl
  | cons c t =>
      simp only [parser, Parser.map, Parser.satisfy]
      split <;> rfl

theorem endsAs_literal (s t : Text) :
    ((literal s).parser parsers t).EndsAs ((literal s).parser parsers' t) := by
  refine ⟨rfl, ?_⟩
  simp only [parser, Parser.map, Parser.literal]
  split <;> rfl

theorem endsAs_choice {ps : List Grammar}
    (h : ∀ p ∈ ps, (p.parser parsers t).EndsAs (p.parser parsers' t)) :
    (Parser.choice (parser.parsers parsers ps) t).EndsAs
      (Parser.choice (parser.parsers parsers' ps) t) := by
  induction ps with
  | nil => exact endsAs_empty
  | cons p ps ih =>
      obtain ⟨hp, hends⟩ := h p List.mem_cons_self
      obtain ⟨hps, hends'⟩ := ih fun q hq => h q (List.mem_cons_of_mem p hq)
      have hgo : Parser.choice.go t (parser.parsers parsers ps) =
          Parser.choice.go t (parser.parsers parsers' ps) :=
        congrArg (fun o : Opening Value => o.alternatives ()) hps
      constructor
      · simp only [Parser.choice, parser.parsers, Parser.choice.go, hp, hgo]
      · change ((Alternatives.append _ _).after _).ends = true
        rw [Alternatives.ends_after, Alternatives.ends_append, Bool.and_eq_true]
        exact ⟨hends, hends'⟩

theorem endsAs_sequence_cons {p : Grammar} {ps : List Grammar}
    (hp : (p.parser parsers t).EndsAs (p.parser parsers' t))
    (hps : ∀ a ∈ ((p.parser parsers t).alternatives ()).toList,
      (Parser.sequence (parser.parsers parsers ps) a.rest).EndsAs
        (Parser.sequence (parser.parsers parsers' ps) a.rest)) :
    (Parser.sequence (parser.parsers parsers (p :: ps)) t).EndsAs
      (Parser.sequence (parser.parsers parsers' (p :: ps)) t) :=
  hp.bind fun a ha => (hps a ha).map _

def EndAsOn (parsers parsers' : String → Parser Value) (t : Text) : Prop :=
  ∀ name u, u <:+ t → (parsers name u).EndsAs (parsers' name u)

def EndAsBelow (parsers parsers' : String → Parser Value) (t : Text) : Prop :=
  ∀ name u, u <:+ t → u.length < t.length → (parsers name u).EndsAs (parsers' name u)

theorem EndAsOn.of_suffix (h : EndAsOn parsers parsers' t) {u : Text} (hut : u <:+ t) :
    EndAsOn parsers parsers' u :=
  fun name v hv => h name v (hv.trans hut)

theorem EndAsBelow.of_suffix (h : EndAsBelow parsers parsers' t) {u : Text} (hut : u <:+ t) :
    EndAsBelow parsers parsers' u :=
  fun name v hv hlt => h name v (hv.trans hut) (hlt.trans_le hut.length_le)

theorem EndAsBelow.of_lt (h : EndAsBelow parsers parsers' t) {u : Text} (hut : u <:+ t)
    (hlt : u.length < t.length) : EndAsOn parsers parsers' u :=
  fun name v hv => h name v (hv.trans hut) (hv.length_le.trans_lt hlt)

section Leaves

variable (hends : ∀ name t, (parsers name t).listing.LeavesEndOf t)

include hends

theorem endsAs_sequence {ps : List Grammar}
    (h : ∀ p ∈ ps, ∀ u, u <:+ t → (p.parser parsers u).EndsAs (p.parser parsers' u)) :
    (Parser.sequence (parser.parsers parsers ps) t).EndsAs
      (Parser.sequence (parser.parsers parsers' ps) t) := by
  induction ps generalizing t with
  | nil => exact endsAs_single [] t
  | cons p ps ih =>
      refine endsAs_sequence_cons (h p List.mem_cons_self t List.suffix_rfl) fun a ha => ?_
      have hsuffix := leavesEndOf_parse hends p t a ha
      exact ih fun q hq u hu => h q (List.mem_cons_of_mem p hq) u (hu.trans hsuffix)

/-- A grammar ends on a text if the rules do on all ends of the text. -/
theorem endsAs_parse {t : Text} (h : EndAsOn parsers parsers' t) (g : Grammar) :
    (g.parser parsers t).EndsAs (g.parser parsers' t) := by
  have hleaves := leavesEndOf_parse hends
  induction g generalizing t with
  | any => cases t <;> exact ⟨rfl, rfl⟩
  | satisfy accepts => exact endsAs_satisfy accepts t
  | literal s => exact endsAs_literal s t
  | succeed v => exact endsAs_single v t
  | fail => exact endsAs_empty
  | endOfInput => cases t <;> exact ⟨rfl, rfl⟩
  | bind p f ihp ihf =>
      exact (ihp h).bind fun a ha => ihf a.value (h.of_suffix (hleaves p t a ha))
  | and p q ihp ihq =>
      exact ((ihp h).bind fun a ha => (ihq (h.of_suffix (hleaves p t a ha))).map _).map _
  | or p q ihp ihq => exact (ihp h).append (ihq h)
  | choice ps ih => exact endsAs_choice fun p hp => ih p hp h
  | sequence ps ih =>
      exact (endsAs_sequence hends fun p hp u hu => ih p hp (h.of_suffix hu)).map _
  | map p f ih => exact (ih h).map f
  | repeated p b ih =>
      exact (Parser.endsAs_repeatFrom (hleaves p) (fun u hu => ih (h.of_suffix hu)) b 0).map _
  | optional p ih => exact (((ih h).map _).append (endsAs_single none t)).map _
  | delayed p ih => exact ih h
  | rule name => exact h name t List.suffix_rfl
  | probe label p ih => exact Parser.endsAs_probe (ih h) label

theorem Consumes.leavesLessThan_parse {p : Grammar} (hp : p.Consumes) (t : Text) :
    (p.parser parsers t).listing.LeavesLessThan t := by
  rw [listing_parse (fun _ _ => rfl) p t]
  exact hp.leavesLessThan_eager hends t

/-- What stands behind a part that takes something may refer to rules freely, as these are followed
on a shorter text. -/
theorem Consumes.endsAs_behind {p : Grammar} (hp : p.Consumes)
    (h : EndAsBelow parsers parsers' t) {a : Alternative Value}
    (ha : a ∈ ((p.parser parsers t).alternatives ()).toList) (q : Grammar) :
    (q.parser parsers a.rest).EndsAs (q.parser parsers' a.rest) := by
  have hsuffix := leavesEndOf_parse hends p t a ha
  exact endsAs_parse hends (h.of_lt hsuffix (hp.leavesLessThan_parse hends t a ha)) q

theorem endsAs_sequenceBehind {ps behind : List Grammar} {p : Grammar} (hc : p.Consumes)
    (h : EndAsBelow parsers parsers' t)
    (hps : ∀ q ∈ ps, ∀ u, u <:+ t → (q.parser parsers u).EndsAs (q.parser parsers' u))
    (hp : ∀ u, u <:+ t → (p.parser parsers u).EndsAs (p.parser parsers' u)) :
    (Parser.sequence (parser.parsers parsers (ps ++ p :: behind)) t).EndsAs
      (Parser.sequence (parser.parsers parsers' (ps ++ p :: behind)) t) := by
  have hleaves := leavesEndOf_parse hends
  induction ps generalizing t with
  | nil =>
      refine endsAs_sequence_cons (hp t List.suffix_rfl) fun a ha => ?_
      have hsuffix := hleaves p t a ha
      have hlt := hc.leavesLessThan_parse hends t a ha
      refine endsAs_sequence hends fun q _ u hu => endsAs_parse hends ?_ q
      exact (h.of_lt hsuffix hlt).of_suffix hu
  | cons q ps ih =>
      refine endsAs_sequence_cons (hps q List.mem_cons_self t List.suffix_rfl) fun a ha => ?_
      have hsuffix := hleaves q t a ha
      refine ih (h.of_suffix hsuffix) (fun q' hq' u hu => ?_) fun u hu => ?_
      · exact hps q' (List.mem_cons_of_mem q hq') u (hu.trans hsuffix)
      · exact hp u (hu.trans hsuffix)

/-- A guarded grammar ends on a text if the rules do on all shorter ends of the text. -/
theorem Guarded.endsAs_parse {g : Grammar} (hg : g.Guarded) {t : Text}
    (h : EndAsBelow parsers parsers' t) : (g.parser parsers t).EndsAs (g.parser parsers' t) := by
  have hleaves := leavesEndOf_parse hends
  -- The induction meets no reference: `Guarded` has none, and leaves open what is behind a part
  -- that takes something.
  induction hg generalizing t with
  | any => cases t <;> exact ⟨rfl, rfl⟩
  | satisfy accepts => exact endsAs_satisfy accepts t
  | literal s => exact endsAs_literal s t
  | succeed v => exact endsAs_single v t
  | fail => exact endsAs_empty
  | endOfInput => cases t <;> exact ⟨rfl, rfl⟩
  | bind _ _ ihp ihf =>
      exact (ihp h).bind fun a ha => ihf a.value (h.of_suffix (hleaves _ t a ha))
  | bindBehind _ hc ih => exact (ih h).bind fun a ha => hc.endsAs_behind hends h ha _
  | and _ _ ihp ihq =>
      exact ((ihp h).bind fun a ha => (ihq (h.of_suffix (hleaves _ t a ha))).map _).map _
  | andBehind _ hc ih =>
      exact ((ih h).bind fun a ha => (hc.endsAs_behind hends h ha _).map _).map _
  | or _ _ ihp ihq => exact (ihp h).append (ihq h)
  | choice _ ih => exact endsAs_choice fun p hp => ih p hp h
  | sequence _ ih =>
      exact (endsAs_sequence hends fun p hp u hu => ih p hp (h.of_suffix hu)).map _
  | sequenceBehind _ _ hc ihps ihp =>
      exact (endsAs_sequenceBehind hends hc h (fun q hq u hu => ihps q hq (h.of_suffix hu))
        fun u hu => ihp (h.of_suffix hu)).map _
  | map _ ih => exact (ih h).map _
  | repeated b _ ih =>
      exact (Parser.endsAs_repeatFrom (hleaves _) (fun u hu => ih (h.of_suffix hu)) b 0).map _
  | optional _ ih => exact (((ih h).map _).append (endsAs_single none t)).map _
  | delayed _ ih => exact ih h
  | probe _ ih => exact Parser.endsAs_probe (ih h) _

end Leaves

end Grammar

namespace Rules

/-- The references in all rules are guarded. -/
def Guarded (rules : Rules) : Prop := ∀ name, (rules.get name).Guarded

/-- A budget above the length of the text is not spent, as each reference inside a rule is followed
on a shorter text. -/
theorem Guarded.endsAs {rules : Rules} (h : rules.Guarded) {m n : ℕ} {t : Text}
    (hm : t.length < m) (hn : t.length < n) (name : String) :
    (rules.parser m name t).EndsAs (rules.parser n name t) := by
  induction m generalizing n t name with
  | zero => exact absurd hm (Nat.not_lt_zero _)
  | succ m ih =>
      obtain ⟨n, rfl⟩ := Nat.exists_eq_succ_of_ne_zero (Nat.ne_zero_of_lt hn)
      refine (h name).endsAs_parse (rules.leavesEndOf_parse m) fun name u _ hlt => ?_
      exact ih (by omega) (by omega) name

end Rules

namespace Grammar

variable {rules : Rules} {t : Text}

theorem endsAs_within (h : rules.Guarded) (g : Grammar) {m n : ℕ} (hm : t.length < m)
    (hn : t.length < n) : (g.within rules m t).EndsAs (g.within rules n t) := by
  refine endsAs_parse (rules.leavesEndOf_parse m) (fun name u hu => ?_) g
  exact h.endsAs (hu.length_le.trans_lt hm) (hu.length_le.trans_lt hn) name

theorem length_lt_nestingLimit (t : Text) : t.length < Rules.nestingLimit t :=
  Nat.lt_add_of_pos_right (Nat.pow_pos Nat.two_pos)

/-- **Termination.** Over guarded rules every grammar, however it nests repetitions of grammars
that match the empty text, comes to its end on every text after finitely many pulls, and no budget
above the length of the text makes a difference. In every repetition, all calls of `repeatFrom`
count at most as many iterations as the repetition has taken bytes, so on a text of fewer bytes
than the greatest count there is room for one more. These are all the calls: to replace what
others give changes nothing. -/
theorem run_ends (h : rules.Guarded) (g : Grammar) (t : Text) :
    (∃ k, ((g.under rules t).pull k).finished) ∧
    (∀ budget, t.length < budget → g.within rules budget t = g.under rules t) ∧
    ∀ (p : Grammar) (budget : ℕ) (b : Bounds) (u : Text),
      (∀ count r, (p.within rules budget).Repeats b u count r →
        count ≤ u.byteLength - r.byteLength ∧
          (u.byteLength < Bounds.maxCount → count + 1 ≤ Bounds.maxCount)) ∧
      ∀ watch, (∀ count r, (p.within rules budget).Repeats b u count r →
          ∀ runs, watch count r runs = runs) →
        Parser.watchedFrom watch (p.within rules budget) b 0 u =
          (p.within rules budget).repeated b u := by
  have hlimit := length_lt_nestingLimit t
  refine ⟨?_, fun budget hb => (endsAs_within h g hb hlimit).1, fun p budget b u => ⟨?_, ?_⟩⟩
  · have hends : ((g.under rules t).alternatives ()).ends := (endsAs_within h g hlimit hlimit).2
    refine ⟨((g.under rules t).alternatives ()).toList.length + 1, ?_⟩
    rw [Opening.pull, Alternatives.finished_pull, hends, Bool.true_and, decide_eq_true_eq]
    exact Nat.lt_succ_self _
  · intro count r hcall
    have hcount := hcall.count_add_le (leavesEndOf_within p rules budget)
    constructor <;> omega
  · exact fun watch hwatch => Parser.watchedFrom_eq hwatch .start

/-- Nested lists in brackets, whose items may be empty, in two nested repetitions. The watcher
drops what is called with a counter above the length of the text. -/
theorem run_ends_nested :
    let rules : Rules :=
      [("nest", .or (surroundedBy (separatedBy (.rule "nest") (.literal [','])) (.literal ['('])
        (.literal [')'])) (.succeed .unit))]
    let item : Grammar := many (.rule "nest")
    let t : Text := ['(', ')']
    let p : Parser Value := item.within rules 3
    let watch : ℕ → Text → Opening (List Value) → Opening (List Value) :=
      fun count _ runs => if count ≤ 2 then runs else .empty
    rules.Guarded ∧ (∃ k, (((many item).under rules t).pull k).finished) ∧
      (t.length < 3 ∧ (many item).within rules 3 t = (many item).under rules t) ∧
      (p.Repeats (.atLeast 0) t 1 [] ∧ 1 ≤ t.byteLength - Text.byteLength [] ∧
        t.byteLength < Bounds.maxCount ∧ 1 + 1 ≤ Bounds.maxCount) ∧
      (∀ count r, p.Repeats (.atLeast 0) t count r → ∀ runs, watch count r runs = runs) ∧
      p.watchedFrom watch (.atLeast 0) 0 t = p.repeated (.atLeast 0) t := by
  intro rules item t p watch
  have hrules : rules.Guarded := by
    refine Rules.get_induction .fail fun rule hrule => ?_
    obtain rfl := List.mem_singleton.mp hrule
    exact .or (.map (.andBehind (.literal _) (.literal (by decide)))) (.succeed _)
  have hrest : [] ∈ ((p t).alternatives ()).toList.map (·.rest) := by decide +kernel
  have hcall : p.Repeats (.atLeast 0) t 1 [] := by
    obtain ⟨a, ha, hnil⟩ := List.mem_map.mp hrest
    have hlt : a.rest.length < t.length := by rw [hnil]; decide
    exact hnil ▸ Parser.Repeats.start.again rfl ha hlt
  have hwatch : ∀ count r, p.Repeats (.atLeast 0) t count r →
      ∀ runs, watch count r runs = runs := by
    intro count r h runs
    have hcount := h.count_add_le (leavesEndOf_within item rules 3)
    have hbytes : t.byteLength = 2 := rfl
    exact if_pos (by omega)
  have hmax : t.byteLength < Bounds.maxCount := by decide
  obtain ⟨hends, hbudget, hrepeats⟩ := run_ends hrules (many item) t
  obtain ⟨hcounts, hwatched⟩ := hrepeats item 3 (.atLeast 0) t
  obtain ⟨hcount, hroom⟩ := hcounts 1 [] hcall
  exact ⟨hrules, hends, ⟨by decide, hbudget 3 (by decide)⟩, ⟨hcall, hcount, hmax, hroom hmax⟩,
    hwatch, hwatched watch hwatch⟩

end Grammar

end Backtrack
