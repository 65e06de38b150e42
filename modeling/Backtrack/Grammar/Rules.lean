import Backtrack.Grammar.Basic

/-!
Rules give names to grammars, which may refer to each other and to themselves. The parser of a
grammar over rules follows references only as deeply as a budget allows.
-/

namespace Backtrack

/-- Named grammars. The first of two rules with one name counts. -/
abbrev Rules := List (String × Grammar)

namespace Rules

/-- The grammar of a rule. A name without rule stands for the grammar that always fails. -/
def get (rules : Rules) (name : String) : Grammar := (rules.lookup name).getD .fail

/-- What holds of all rules, and of failure, holds of whatever a name stands for. -/
theorem get_induction {P : Grammar → Prop} {rules : Rules} (hfail : P .fail)
    (h : ∀ rule ∈ rules, P rule.2) (name : String) : P (rules.get name) := by
  unfold get
  cases hname : rules.lookup name with
  | none => exact hfail
  | some g =>
    obtain ⟨before, behind, rfl, -⟩ := List.lookup_eq_some_iff.mp hname
    exact h (name, g) (List.mem_append_right before List.mem_cons_self)

/-- The parser of a rule, which follows nested references `budget` deep. -/
def parser (rules : Rules) : (budget : Nat) → String → Parser Value
  | 0, _ => .cutOff
  | budget + 1, name => (rules.get name).parser (parser rules budget)

/-- How deeply references may be nested on the text `t`. Rules that take a character before they
refer to a rule again nest no deeper than `t` is long; what is added leaves room for others. -/
def nestingLimit (t : Text) : Nat := t.length + Nat.pow 2 62

end Rules

def Grammar.under (g : Grammar) (rules : Rules) : Parser Value := fun t =>
  g.parser (rules.parser (Rules.nestingLimit t)) t

end Backtrack
