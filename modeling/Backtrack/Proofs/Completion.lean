import Backtrack.Proofs.Selection

/-!
Two ways to ask for the whole text. A run can pass over alternatives that leave something over, or
the end of the text can be made a part of what is parsed, so that such alternatives have no
continuation. Both find the same alternative and do the same work to find it; where there is none,
only the first way tells how far the alternatives got.
-/

namespace Backtrack

namespace Alternatives

variable {α : Type} {input : Text} {a : Alternative α}

def atEnd (s : Alternatives α) : Alternatives (α × Unit) :=
  s.bind fun a => (Parser.endOfInput a.rest).map (a.value, ·)

theorem atEnd_next_of_rest_ne_nil (h : a.rest ≠ []) (c : List Call)
    (tail : Unit → Alternatives α) : (next c a tail).atEnd = (tail ()).atEnd.after c := by
  obtain ⟨d, r, hrest⟩ := List.exists_cons_of_ne_nil h
  rw [atEnd, bind_next, hrest]
  simp [atEnd, Parser.endOfInput, Opening.map, Opening.empty, map]

theorem atEnd_next_of_rest_eq_nil (h : a.rest = []) (c : List Call)
    (tail : Unit → Alternatives α) :
    ∃ later, (next c a tail).atEnd = next c ⟨(a.value, ()), []⟩ later := by
  rw [atEnd, bind_next, h]
  simp [Parser.endOfInput, Opening.map, Opening.single, map, Alternative.map]

/-- The calls of the first pull may as well be made before the run. -/
theorem select_after (o : Options) (examined : ℕ) (furthest : Option Text) (earlier c : List Call)
    (s : Alternatives α) :
    select input o examined furthest earlier (s.after c) =
      select input o examined furthest (earlier ++ c) s := by
  cases s <;> simp [select]

/-! ### Runs for the whole text -/

/-- What is left of a result when the end of the text is parsed: the value with nothing beside it,
or that there is no parse. -/
def resultAtEnd (input : Text) : Except ParseError α → Except ParseError (α × Unit)
  | .ok v => .ok (v, ())
  | .error _ => .error (.noParse (.locate input 0))

/-- A run that looks for an alternative without a rest, and a run for the first alternative with the
end of the text behind it, make the same calls and find the same. -/
theorem select_atEnd (examined : ℕ) (furthest : Option Text) (earlier : List Call)
    (s : Alternatives α) :
    (select input .partially 0 none earlier s.atEnd).calls =
        (select input {} examined furthest earlier s).calls ∧
      (select input .partially 0 none earlier s.atEnd).result =
        (select input {} examined furthest earlier s).result.map (resultAtEnd input) := by
  have hallows (o : Options) (h : o.maxAlternatives = none) (n : ℕ) : o.Allows n :=
    Options.allows_of_none h
  induction s generalizing examined furthest earlier with
  | exhausted c => exact ⟨rfl, rfl⟩
  | cutOff c => exact ⟨rfl, rfl⟩
  | next c a tail ih =>
      by_cases hrest : a.rest = []
      · obtain ⟨later, hlater⟩ := atEnd_next_of_rest_eq_nil hrest c tail
        have haccepts : ({} : Options).accepts a := by simp [Options.accepts, hrest]
        rw [hlater, select_of_accepts (hallows {} rfl _) haccepts,
          select_of_accepts (hallows .partially rfl _) rfl]
        exact ⟨rfl, rfl⟩
      · have hskipped : ¬({} : Options).accepts a := by simp [Options.accepts, hrest]
        rw [atEnd_next_of_rest_ne_nil hrest, select_after,
          select_of_not_accepts (hallows {} rfl _) hskipped]
        exact ih () (examined + 1) _ (earlier ++ c)

theorem eq_endError_of_select {examined : ℕ} {furthest : Option Text} {earlier : List Call}
    {s : Alternatives α} {e : ParseError}
    (h : (select input {} examined furthest earlier s).result = some (.error e)) :
    e = endError input (furthestOf furthest s.toList) := by
  rcases select_error_cases h with ⟨-, -, he⟩ | ⟨limit, hlimit, -⟩
  · exact he
  · exact absurd hlimit (Option.not_mem_none limit)

end Alternatives

namespace Parser

open Backtrack.Alternatives

variable {α : Type}

theorem runComplete_error (p : Parser α) (t : Text) {e : ParseError}
    (h : (p.runComplete t).result = some (.error e)) :
    let as := ((p t).alternatives ()).toList
    (as = [] → e = .noParse (.locate t 0)) ∧
      (as ≠ [] → ∃ a ∈ as, e = .incomplete (.ofRest t a.rest) a.rest) := by
  intro as
  obtain rfl : e = endError t (furthestOf none as) := eq_endError_of_select h
  constructor
  · intro hnone
    rw [hnone]
    rfl
  · intro hne
    obtain ⟨a, ha, hfurthest, -⟩ := exists_furthestOf_eq hne
    exact ⟨a, ha, by rw [hfurthest]; rfl⟩

/-- **Two ways to ask for the whole text.** A run for the whole text, and a run for the first
alternative of the parser with the end of the text behind it, both come to a result or none of them
does. One finds a value if and only if the other one finds it, with nothing more beside it, and they
make the same calls in the same order. Where there is no such value, the second run only says that
there is no parse; the first one says this if the parser has no alternative at all, and otherwise
that the parse is incomplete. -/
theorem runComplete_agrees_with_endOfInput (p : Parser α) (t : Text) :
    let whole := p.runComplete t
    let first := (p.and endOfInput).runFirst t
    let as := ((p t).alternatives ()).toList
    (first.result.isSome = whole.result.isSome) ∧
    (∀ v, whole.result = some (.ok v) ↔ first.result = some (.ok (v, ()))) ∧
    first.calls = whole.calls ∧
    ((∃ e, whole.result = some (.error e)) ↔ ∃ e, first.result = some (.error e)) ∧
    (∀ e, first.result = some (.error e) → e = .noParse (.locate t 0)) ∧
    ∀ e, whole.result = some (.error e) →
      (as = [] → e = .noParse (.locate t 0)) ∧
      (as ≠ [] → ∃ a ∈ as, e = .incomplete (.ofRest t a.rest) a.rest) := by
  intro whole first as
  obtain ⟨hcalls, hresult⟩ : first.calls = whole.calls ∧
      first.result = whole.result.map (resultAtEnd t) :=
    select_atEnd 0 none (p t).calls ((p t).alternatives ())
  refine ⟨?_, ?_, hcalls, ?_, ?_, fun e he => runComplete_error p t he⟩
  · rw [hresult, Option.isSome_map]
  all_goals
    rw [hresult]
    rcases whole.result with _ | e | w <;> simp [resultAtEnd, eq_comm]

/-- A parser whose first two alternatives leave something over: the third one is found both ways,
with the same calls. On a text with one more character there is none. -/
theorem runComplete_agrees_with_endOfInput_third :
    let p : Parser Text := ((literal []).probe "none").or
      (((literal ['a']).probe "one").or ((literal ['a', 'a']).probe "two"))
    let t : Text := ['a', 'a']
    let t' : Text := ['a', 'a', 'b']
    (p.runComplete t).result = some (.ok t) ∧
      ((p.and endOfInput).runFirst t).result = some (.ok (t, ())) ∧
      ((p.and endOfInput).runFirst t).calls = [⟨"none", t⟩, ⟨"one", t⟩, ⟨"two", t⟩] ∧
      (p.runComplete t').result = some (.error (.incomplete ⟨2, 1, 3⟩ ['b'])) ∧
      ((p.and endOfInput).runFirst t').result = some (.error (.noParse ⟨0, 1, 1⟩)) := by
  intro p t t'
  have hfound : (p.runComplete t).result = some (.ok t) := rfl
  have hfailed : (p.runComplete t').result = some (.error (.incomplete ⟨2, 1, 3⟩ ['b'])) := rfl
  obtain ⟨-, hok, hcalls, -⟩ := runComplete_agrees_with_endOfInput p t
  obtain ⟨-, -, -, herror, hnoParse, -⟩ := runComplete_agrees_with_endOfInput p t'
  obtain ⟨e, he⟩ := herror.mp ⟨_, hfailed⟩
  refine ⟨hfound, (hok t).mp hfound, hcalls.trans rfl, hfailed, ?_⟩
  rw [he, hnoParse e he]
  rfl

end Parser

end Backtrack
