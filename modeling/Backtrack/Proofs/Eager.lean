import Backtrack.Grammar.Induction
import Backtrack.Grammar.Rules
import Backtrack.Proofs.Listing
import Mathlib.Data.List.Basic

/-!
The eager semantics of grammars: every grammar stands for the list of its alternatives, worked
out at once by list append, map and concatenation. Rules are unfolded as deeply as a budget
allows. More budget only adds to a list, so the lists of all budgets have a limit, which is the
possibly infinite list of the alternatives of the grammar. Lazy sequences refine it: however
often they are pulled, they yield the front of this list.
-/

namespace Backtrack

namespace Listing

variable {α : Type}

/-- The runs of `p` that continue `count` earlier iterations, which left over `t`: one more
iteration is tried before stopping here, and an iteration that takes nothing is the last. -/
def repeatFrom (p : Text → Listing α) (b : Bounds) (count : ℕ) (t : Text) : Listing (List α) :=
  let stop : Listing (List α) := if b.min ≤ count then .single [] t else .empty
  if b.max.any (· ≤ count) then stop
  else
    ((p t).flatMap fun a =>
      if a.rest.length < t.length then
        (repeatFrom p b (count + 1) a.rest).map (a.value :: ·)
      else if b.min ≤ count + 1 then .single [a.value] a.rest
      else .empty).append stop
termination_by t.length

end Listing

namespace Grammar

/-- The list of the alternatives of a grammar, when `rules` gives the lists of the rules. -/
def eager (rules : String → Text → Listing Value) : Grammar → Text → Listing Value
  | any, [] => .empty
  | any, c :: t => .single (.text [c]) t
  | satisfy _, [] => .empty
  | satisfy accepts, c :: t => if accepts c then .single (.text [c]) t else .empty
  | literal s, t => if s <+: t then .single (.text s) (t.drop s.length) else .empty
  | succeed v, t => .single v t
  | fail, _ => .empty
  | endOfInput, t => if t = [] then .single .unit t else .empty
  | bind p f, t => (eager rules p t).flatMap fun a => eager rules (f a.value) a.rest
  | and p q, t =>
    (eager rules p t).flatMap fun a => (eager rules q a.rest).map (.pair a.value)
  | or p q, t => (eager rules p t).append (eager rules q t)
  | choice ps, t => eagerChoice rules ps t
  | sequence ps, t => (eagerSequence rules ps t).map .list
  | map p f, t => (eager rules p t).map f
  | repeated p b, t => (Listing.repeatFrom (eager rules p) b 0 t).map .list
  | optional p, t => ((eager rules p t).map .some).append (.single .none t)
  | delayed p, t => eager rules (p ()) t
  | rule name, t => rules name t
  | probe _ p, t => eager rules p t
where
  eagerChoice (rules : String → Text → Listing Value) : List Grammar → Text → Listing Value
    | [], _ => .empty
    | p :: ps, t => (eager rules p t).append (eagerChoice rules ps t)
  eagerSequence (rules : String → Text → Listing Value) :
      List Grammar → Text → Listing (List Value)
    | [], t => .single [] t
    | p :: ps, t =>
      (eager rules p t).flatMap fun a => (eagerSequence rules ps a.rest).map (a.value :: ·)

/-! ### Reading parsers as lists -/

section Agreement

variable {parsers : String → Parser Value} {lists : String → Text → Listing Value}

theorem listing_stop {α : Type} (b : Bounds) (count : ℕ) (values : List α) (t : Text) :
    (if b.min ≤ count then Opening.single values t else .empty).listing =
      if b.min ≤ count then Listing.single values t else .empty := by
  split <;> rfl

theorem listing_repeatFrom {α : Type} {p : Parser α} {l : Text → Listing α}
    (h : ∀ t, (p t).listing = l t) (b : Bounds) (count : ℕ) (t : Text) :
    (p.repeatFrom b count t).listing = Listing.repeatFrom l b count t := by
  induction hn : t.length using Nat.strong_induction_on generalizing count t with
  | _ n ih =>
      have hstop := listing_stop b count ([] : List α) t
      unfold Parser.repeatFrom Listing.repeatFrom
      dsimp only
      split
      · exact hstop
      · rw [Opening.listing_append, Opening.listing_bind, h, hstop]
        -- Only the continuations are left to compare, case by case of what an iteration takes.
        congr 2
        funext a
        split
        · rename_i hlt
          rw [Opening.listing_map, ih _ (hn ▸ hlt) _ _ rfl]
        · exact listing_stop b (count + 1) [a.value] a.rest

theorem listing_choice (ps : List Grammar) (t : Text)
    (h : ∀ p ∈ ps, (p.parser parsers t).listing = p.eager lists t) :
    (Parser.choice (parser.parsers parsers ps) t).listing = eager.eagerChoice lists ps t := by
  induction ps with
  | nil => rfl
  | cons p ps ih =>
      have hhead : ((p.parser parsers t).alternatives ()).listing = p.eager lists t :=
        h p List.mem_cons_self
      have htail := ih fun q hq => h q (List.mem_cons_of_mem p hq)
      show (Alternatives.after _ (Alternatives.append _ _)).listing = _
      rw [Alternatives.listing_after, Alternatives.listing_append, hhead]
      exact congrArg _ htail

theorem listing_sequence (ps : List Grammar) (t : Text)
    (h : ∀ p ∈ ps, ∀ t, (p.parser parsers t).listing = p.eager lists t) :
    (Parser.sequence (parser.parsers parsers ps) t).listing =
      eager.eagerSequence lists ps t := by
  induction ps generalizing t with
  | nil => rfl
  | cons p ps ih =>
      simp only [parser.parsers, Parser.sequence, eager.eagerSequence, Opening.listing_bind,
        Opening.listing_map]
      rw [h p List.mem_cons_self]
      congr 1
      funext a
      rw [ih a.rest fun q hq => h q (List.mem_cons_of_mem p hq)]

/-- A parser yields the list of its grammar if the parsers of the rules yield their lists. -/
theorem listing_parse (h : ∀ name t, (parsers name t).listing = lists name t) (g : Grammar)
    (t : Text) : (g.parser parsers t).listing = g.eager lists t := by
  induction g generalizing t with
  | any => cases t <;> rfl
  | satisfy accepts =>
      cases t with
      | nil => rfl
      | cons c t =>
          simp only [parser, eager, Parser.map, Parser.satisfy]
          split <;> rfl
  | literal s =>
      simp only [parser, eager, Parser.map, Parser.literal]
      split
      · rename_i rest hrest
        obtain rfl := List.isPrefixOf?_eq_some_iff_append_eq.mp hrest
        rw [if_pos (List.prefix_append s rest), List.drop_left]
        rfl
      · rename_i hnone
        rw [if_neg]
        · rfl
        · rintro ⟨rest, hrest⟩
          rw [List.isPrefixOf?_eq_some_iff_append_eq.mpr hrest] at hnone
          cases hnone
  | succeed v => rfl
  | fail => rfl
  | endOfInput => cases t <;> rfl
  | bind p f ihp ihf =>
      simp only [parser, eager, Parser.bind, Opening.listing_bind, ihp, ihf]
  | and p q ihp ihq =>
      simp only [parser, eager, Parser.and, Parser.map, Opening.listing_map, Opening.listing_bind,
        ihp, ihq, Listing.map_flatMap, Listing.map_map]
  | or p q ihp ihq => simp only [parser, eager, Parser.or, Opening.listing_append, ihp, ihq]
  | choice ps ih => exact listing_choice ps t fun p hp => ih p hp t
  | sequence ps ih =>
      simp only [parser, eager, Parser.map, Opening.listing_map]
      rw [listing_sequence ps t ih]
  | map p f ih => simp only [parser, eager, Parser.map, Opening.listing_map, ih]
  | repeated p b ih =>
      simp only [parser, eager, Parser.map, Parser.repeated, Opening.listing_map]
      rw [listing_repeatFrom ih]
  | optional p ih =>
      simp only [parser, eager, Parser.map, Parser.optional, Opening.listing_map,
        Opening.listing_append, ih, Listing.map_append, Listing.map_map]
      rfl
  | delayed p ih => exact ih t
  | rule name => exact h name t
  | probe label p ih => exact ih t

end Agreement

/-! ### More of the rules, more of the list -/

section Order

variable {lists lists' : String → Text → Listing Value}

theorem repeatFrom_mono {α : Type} {l l' : Text → Listing α} (h : ∀ t, l t ≤ l' t) (b : Bounds)
    (count : ℕ) (t : Text) :
    Listing.repeatFrom l b count t ≤ Listing.repeatFrom l' b count t := by
  induction hn : t.length using Nat.strong_induction_on generalizing count t with
  | _ n ih =>
      unfold Listing.repeatFrom
      dsimp only
      split
      · exact le_refl _
      · refine Listing.append_mono (Listing.flatMap_mono (h t) fun a _ => ?_) (le_refl _)
        split
        · rename_i hlt
          exact Listing.map_mono _ (ih _ (hn ▸ hlt) _ _ rfl)
        · exact le_refl _

theorem eagerChoice_mono {ps : List Grammar} {t : Text}
    (h : ∀ p ∈ ps, p.eager lists t ≤ p.eager lists' t) :
    eager.eagerChoice lists ps t ≤ eager.eagerChoice lists' ps t := by
  induction ps with
  | nil => exact le_refl _
  | cons p ps ih =>
      exact Listing.append_mono (h p List.mem_cons_self)
        (ih fun q hq => h q (List.mem_cons_of_mem p hq))

theorem eagerSequence_mono {ps : List Grammar}
    (h : ∀ p ∈ ps, ∀ t, p.eager lists t ≤ p.eager lists' t) (t : Text) :
    eager.eagerSequence lists ps t ≤ eager.eagerSequence lists' ps t := by
  induction ps generalizing t with
  | nil => exact le_refl _
  | cons p ps ih =>
      refine Listing.flatMap_mono (h p List.mem_cons_self t) fun a _ => ?_
      exact Listing.map_mono _ (ih (fun q hq => h q (List.mem_cons_of_mem p hq)) a.rest)

/-- If the lists of the rules are worked out further, so is the list of a grammar. -/
theorem eager_mono (h : ∀ name t, lists name t ≤ lists' name t) (g : Grammar) (t : Text) :
    g.eager lists t ≤ g.eager lists' t := by
  induction g generalizing t with
  | any => cases t <;> exact le_refl _
  | satisfy accepts => cases t <;> exact le_refl _
  | literal s => exact le_refl _
  | succeed v => exact le_refl _
  | fail => exact le_refl _
  | endOfInput => exact le_refl _
  | bind p f ihp ihf => exact Listing.flatMap_mono (ihp t) fun a _ => ihf a.value a.rest
  | and p q ihp ihq => exact Listing.flatMap_mono (ihp t) fun a _ => Listing.map_mono _ (ihq a.rest)
  | or p q ihp ihq => exact Listing.append_mono (ihp t) (ihq t)
  | choice ps ih => exact eagerChoice_mono fun p hp => ih p hp t
  | sequence ps ih => exact Listing.map_mono _ (eagerSequence_mono ih t)
  | map p f ih => exact Listing.map_mono f (ih t)
  | repeated p b ih => exact Listing.map_mono _ (repeatFrom_mono ih b 0 t)
  | optional p ih => exact Listing.append_mono (Listing.map_mono _ (ih t)) (le_refl _)
  | delayed p ih => exact ih t
  | rule name => exact h name t
  | probe label p ih => exact ih t

end Order

end Grammar

namespace Rules

def eager (rules : Rules) : (budget : ℕ) → String → Text → Listing Value
  | 0, _, _ => ⊥
  | budget + 1, name, t => (rules.get name).eager (eager rules budget) t

theorem listing_parse (rules : Rules) (budget : ℕ) (name : String) (t : Text) :
    (rules.parser budget name t).listing = rules.eager budget name t := by
  induction budget generalizing name t with
  | zero => rfl
  | succ budget ih => exact Grammar.listing_parse ih (rules.get name) t

theorem eager_le_succ (rules : Rules) (budget : ℕ) (name : String) (t : Text) :
    rules.eager budget name t ≤ rules.eager (budget + 1) name t := by
  induction budget generalizing name t with
  | zero => exact bot_le
  | succ budget ih => exact Grammar.eager_mono ih (rules.get name) t

end Rules

namespace Grammar

variable (g : Grammar) (rules : Rules) (t : Text)

def within (budget : ℕ) : Parser Value := g.parser (rules.parser budget)

/-- A grammar is run with a budget that depends on the length of the text alone. -/
theorem under_eq_within : g.under rules t = g.within rules (Rules.nestingLimit t) t := rfl

def eagerWithin (budget : ℕ) : Listing Value := g.eager (rules.eager budget) t

theorem listing_within (budget : ℕ) :
    (g.within rules budget t).listing = g.eagerWithin rules t budget :=
  listing_parse (rules.listing_parse budget) g t

theorem eagerWithin_mono : Monotone (g.eagerWithin rules t) :=
  monotone_nat_of_le_succ fun budget => eager_mono (rules.eager_le_succ budget) g t

/-- The possibly infinite list of all alternatives of a grammar over rules. -/
noncomputable def eagerList : Stream'.Seq (Alternative Value) :=
  Listing.limit (g.eagerWithin rules t)

variable {g rules t}

theorem alternatives_pull_within (budget k : ℕ) :
    ((g.within rules budget t).pull k).alternatives =
      (g.eagerWithin rules t budget).items.take k := by
  rw [← listing_within]
  exact Alternatives.alternatives_pull k _

theorem finished_pull_within (budget k : ℕ) :
    ((g.within rules budget t).pull k).finished =
      ((g.eagerWithin rules t budget).complete &&
        decide ((g.eagerWithin rules t budget).items.length < k)) := by
  rw [← listing_within]
  exact Alternatives.finished_pull k _

/-- Pulls refine lists. At every budget they yield the front of the eager list and see its end
exactly if there is one. A list that comes to its end is the whole list of the grammar, whatever
the budget. In any case as many pulls as one likes yield the front of the whole list, which may
be infinite, once the budget is large enough, and at every budget unless they are cut off. -/
theorem pull_refines_eager (g : Grammar) (rules : Rules) (t : Text) :
    (∀ budget k,
      ((g.within rules budget t).pull k).alternatives =
          (g.eagerWithin rules t budget).items.take k ∧
        ((g.within rules budget t).pull k).finished =
          ((g.eagerWithin rules t budget).complete &&
            decide ((g.eagerWithin rules t budget).items.length < k))) ∧
    (∀ budget, (g.eagerWithin rules t budget).complete →
      g.eagerList rules t = Stream'.Seq.ofList (g.eagerWithin rules t budget).items) ∧
    (∀ budget k, ((g.within rules budget t).pull k).finished ∨
        ((g.within rules budget t).pull k).alternatives.length = k →
      ((g.within rules budget t).pull k).alternatives = (g.eagerList rules t).take k) ∧
    ∀ k, ∃ least, ∀ budget ≥ least,
      ((g.within rules budget t).pull k).alternatives = (g.eagerList rules t).take k := by
  have hmono := g.eagerWithin_mono rules t
  refine ⟨fun budget k => ⟨alternatives_pull_within budget k, finished_pull_within budget k⟩,
    fun budget h => Listing.limit_eq_of_complete hmono h, ?_, ?_⟩
  · intro budget k h
    rw [alternatives_pull_within, finished_pull_within] at *
    rcases h with h | h
    · rw [Bool.and_eq_true] at h
      exact (Listing.take_limit_of_complete hmono h.1 k).symm
    · refine (Listing.take_prefix_take_limit hmono budget k).eq_of_length_le ?_
      rw [h]
      exact Stream'.Seq.length_take_le
  · intro k
    obtain ⟨least, hleast⟩ := Listing.exists_take_limit hmono k
    refine ⟨least, fun budget hb => ?_⟩
    rw [alternatives_pull_within]
    exact hleast budget hb

/-- A rule that offers the empty text and then itself has no last alternative. -/
theorem pull_refines_eager_endless :
    let rules : Rules := [("loop", .or (.succeed .unit) (.rule "loop"))]
    let g : Grammar := .rule "loop"
    ((g.within rules 4 ['a']).pull 3).finished = false ∧
      ((g.within rules 4 ['a']).pull 3).alternatives.length = 3 ∧
      (g.eagerList rules ['a']).take 3 =
        [⟨.unit, ['a']⟩, ⟨.unit, ['a']⟩, ⟨.unit, ['a']⟩] := by
  intro rules g
  have hlength : ((g.within rules 4 ['a']).pull 3).alternatives.length = 3 := rfl
  exact ⟨rfl, hlength, ((pull_refines_eager g rules ['a']).2.2.1 4 3 (.inr hlength)).symm⟩

end Grammar

end Backtrack
