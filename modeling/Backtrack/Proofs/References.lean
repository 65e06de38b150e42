import Backtrack.Grammar.Classes
import Backtrack.Proofs.Derivation
import Backtrack.Proofs.Termination

/-!
References over guarded rules. The budget for references is never spent there, so it leaves no trace
in what a grammar does: a reference does what the grammar of its rule does, on every text, and any
other grammar does what its form says of its parts, references among them. The lists of alternatives
then satisfy the equations that the rules are, and can be reasoned about without a budget.
-/

namespace Backtrack

@[simp] theorem Listing.append_of_complete {α : Type} (as bs : List (Alternative α)) :
    (⟨as, true⟩ : Listing α).append ⟨bs, true⟩ = ⟨as ++ bs, true⟩ := rfl

def Rules.reference (rules : Rules) (name : String) : Parser Value :=
  (Grammar.rule name).under rules

namespace Grammar

def alternativesOver (rules : Rules) (g : Grammar) (t : Text) : List (Alternative Value) :=
  ((g.under rules t).alternatives ()).toList

variable {rules : Rules}

theorem within_rule (rules : Rules) (name : String) (budget : ℕ) :
    (rule name).within rules budget = rules.parser budget name := rfl

/-- A reference is followed with a budget that depends on its own text, which makes no
difference. -/
theorem under_eq_referring (h : rules.Guarded) (g : Grammar) :
    g.under rules = g.parser rules.reference := by
  funext t
  rw [under_eq_within]
  have hlimit := length_lt_nestingLimit t
  generalize Rules.nestingLimit t = budget at hlimit
  refine (endsAs_parse (rules.leavesEndOf_parse budget) (fun name u hu => ?_) g).1
  rw [Rules.reference, under_eq_within, within_rule]
  exact h.endsAs (hu.length_le.trans_lt hlimit) (length_lt_nestingLimit u) name

theorem ends_under (h : rules.Guarded) (g : Grammar) (t : Text) :
    ((g.under rules t).alternatives ()).ends := by
  rw [under_eq_within]
  exact (endsAs_within h g (length_lt_nestingLimit t) (length_lt_nestingLimit t)).2

/-- With one more reference to follow, a rule is left with the budget of its reference. -/
theorem within_rule_eq (h : rules.Guarded) {budget : ℕ} {t : Text} (hbudget : t.length < budget)
    (name : String) : (rule name).within rules budget t = (rules.get name).within rules budget t :=
  (h.endsAs hbudget (Nat.lt_succ_of_lt hbudget) name).1

theorem rule_under_eq (h : rules.Guarded) (name : String) :
    (rule name).under rules = (rules.get name).under rules :=
  funext fun t => within_rule_eq h (length_lt_nestingLimit t) name

/-- The sequence holds the alternatives and comes to its end. -/
theorem listing_under (h : rules.Guarded) (g : Grammar) (t : Text) :
    (g.under rules t).listing = ⟨g.alternativesOver rules t, true⟩ :=
  Listing.ext rfl (ends_under h g t)

/-- **Rules as equations.** The eager list of a grammar, with the alternatives of the rules at its
references, holds all of its alternatives. -/
theorem eager_over (h : rules.Guarded) (g : Grammar) (t : Text) :
    g.eager (fun name u => ⟨(rule name).alternativesOver rules u, true⟩) t =
      ⟨g.alternativesOver rules t, true⟩ := by
  have hreference : ∀ name u, (rules.reference name u).listing =
      ⟨(rule name).alternativesOver rules u, true⟩ := fun name => listing_under h (rule name)
  rw [← listing_under h, under_eq_referring h, listing_parse hreference]

theorem alternativesOver_rule (h : rules.Guarded) (name : String) (t : Text) :
    (rule name).alternativesOver rules t = (rules.get name).alternativesOver rules t := by
  rw [alternativesOver, rule_under_eq h, alternativesOver]

/-! ### One equation for each form -/

section Forms

variable {p q : Grammar} {t : Text}

theorem alternativesOver_of_eager (h : rules.Guarded) {g : Grammar}
    {as : List (Alternative Value)}
    (heager : g.eager (fun name u => ⟨(rule name).alternativesOver rules u, true⟩) t =
      ⟨as, true⟩) : g.alternativesOver rules t = as := by
  rw [eager_over h] at heager
  exact congrArg Listing.items heager

theorem alternativesOver_satisfy_cons (accepts : Char → Bool) (c : Char) (t : Text) :
    (satisfy accepts).alternativesOver rules (c :: t) =
      if accepts c then [⟨.text [c], t⟩] else [] := by
  change ((Parser.map (Parser.satisfy accepts) _ (c :: t)).alternatives ()).toList = _
  simp only [Parser.map, Parser.satisfy]
  split <;> rfl

theorem alternativesOver_satisfy_eq_nil {accepts : Char → Bool} (h : ¬t.head?.any accepts) :
    (satisfy accepts).alternativesOver rules t = [] := by
  cases t with
  | nil => rfl
  | cons c t => exact (alternativesOver_satisfy_cons accepts c t).trans (if_neg h)

theorem alternativesOver_char_eq_nil {c : Char} (h : t.head? ≠ some c) :
    (char c).alternativesOver rules t = [] := by
  refine alternativesOver_satisfy_eq_nil fun hany => ?_
  cases t with
  | nil => exact Bool.false_ne_true hany
  | cons d t => exact h (congrArg some (beq_iff_eq.mp hany))

theorem alternativesOver_bind (h : rules.Guarded) (f : Value → Grammar) :
    (bind p f).alternativesOver rules t =
      (p.alternativesOver rules t).flatMap fun a =>
        (f a.value).alternativesOver rules a.rest := by
  apply alternativesOver_of_eager h
  simp only [eager, eager_over h, Listing.flatMap_of_complete]

theorem alternativesOver_and (h : rules.Guarded) :
    (and p q).alternativesOver rules t =
      (p.alternativesOver rules t).flatMap fun a =>
        (q.alternativesOver rules a.rest).map (Alternative.map (.pair a.value)) := by
  apply alternativesOver_of_eager h
  simp only [eager, eager_over h, Listing.map, Listing.flatMap_of_complete]

theorem alternativesOver_endOfInput (rules : Rules) (t : Text) :
    endOfInput.alternativesOver rules t = if t = [] then [⟨.unit, []⟩] else [] := by
  cases t <;> rfl

/-- With the end of the text asked for, the alternatives that take everything are kept. -/
theorem alternativesOver_and_endOfInput (h : rules.Guarded) :
    (and p endOfInput).alternativesOver rules t =
      ((p.alternativesOver rules t).filter (·.rest = [])).map
        (Alternative.map (.pair · .unit)) := by
  rw [alternativesOver_and h]
  induction p.alternativesOver rules t with
  | nil => rfl
  | cons a as ih =>
      rw [List.flatMap_cons, ih, alternativesOver_endOfInput, List.filter_cons]
      by_cases hrest : a.rest = []
      · simp [hrest, Alternative.map]
      · simp [hrest]

theorem alternativesOver_or (h : rules.Guarded) :
    (or p q).alternativesOver rules t =
      p.alternativesOver rules t ++ q.alternativesOver rules t := by
  apply alternativesOver_of_eager h
  simp only [eager, eager_over h, Listing.append_of_complete]

theorem alternativesOver_map (h : rules.Guarded) (f : Value → Value) :
    (map p f).alternativesOver rules t =
      (p.alternativesOver rules t).map (Alternative.map f) := by
  apply alternativesOver_of_eager h
  simp only [eager, eager_over h, Listing.map]

theorem alternativesOver_optional (h : rules.Guarded) :
    (optional p).alternativesOver rules t =
      (p.alternativesOver rules t).map (Alternative.map .some) ++ [⟨.none, t⟩] := by
  apply alternativesOver_of_eager h
  simp only [eager, eager_over h, Listing.map, Listing.single, Listing.append_of_complete]

end Forms

end Grammar

end Backtrack
