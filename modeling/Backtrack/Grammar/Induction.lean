import Backtrack.Grammar.Basic

/-!
Induction on grammars. The members of a choice or a sequence, what a value is continued with, and
a delayed grammar all count as parts of a grammar.
-/

namespace Backtrack.Grammar

/-- A property of grammars holds of all of them if every form passes it on from its parts. -/
@[elab_as_elim, induction_eliminator]
theorem induction {P : Grammar → Prop} (any : P any) (satisfy : ∀ accepts, P (satisfy accepts))
    (literal : ∀ s, P (literal s)) (succeed : ∀ v, P (succeed v)) (fail : P fail)
    (endOfInput : P endOfInput) (bind : ∀ p f, P p → (∀ v, P (f v)) → P (bind p f))
    (and : ∀ p q, P p → P q → P (and p q)) (or : ∀ p q, P p → P q → P (or p q))
    (choice : ∀ ps, (∀ p ∈ ps, P p) → P (choice ps))
    (sequence : ∀ ps, (∀ p ∈ ps, P p) → P (sequence ps)) (map : ∀ p f, P p → P (map p f))
    (repeated : ∀ p b, P p → P (repeated p b)) (optional : ∀ p, P p → P (optional p))
    (delayed : ∀ p, P (p ()) → P (delayed p)) (rule : ∀ name, P (rule name))
    (probe : ∀ label p, P p → P (probe label p)) (g : Grammar) : P g :=
  @Grammar.rec P (fun ps => ∀ p ∈ ps, P p) any satisfy literal succeed fail endOfInput bind and or
    choice sequence map repeated optional (fun p ih => delayed p (ih ())) rule probe
    (fun _ h => absurd h List.not_mem_nil) (fun _ _ hp hps => List.forall_mem_cons.2 ⟨hp, hps⟩) g

end Backtrack.Grammar
