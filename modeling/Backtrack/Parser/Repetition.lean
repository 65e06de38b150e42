import Backtrack.Bounds
import Backtrack.Parser.Basic

/-!
Bounded repetition, the longest run first. An iteration that takes nothing ends its run, so
repetition of a parser that matches the empty text ends as well.
-/

namespace Backtrack.Parser

variable {α : Type}

/-- The runs of `p` that continue `count` earlier iterations, on the text `t` that these left
over. An iteration that takes nothing is kept as the last of its run. Every other one takes a
character, so 64 bits hold the counter as long as `count` plus the length of `t` stays below
`2 ^ 64`. -/
def repeatFrom (p : Parser α) (b : Bounds) (count : Nat) (t : Text) : Opening (List α) :=
  let stop : Unit → Opening (List α) := fun _ => if b.min ≤ count then .single [] t else .empty
  if b.max.any (· ≤ count) then stop ()
  else
    Opening.append
      ((p t).bind fun a =>
        if a.rest.length < t.length then
          (repeatFrom p b (count + 1) a.rest).map (a.value :: ·)
        else if b.min ≤ count + 1 then .single [a.value] a.rest
        else .empty)
      stop
termination_by t.length

/-- `p` as often as the bounds admit, the longest run first. -/
def repeated (p : Parser α) (b : Bounds) : Parser (List α) := repeatFrom p b 0

def many (p : Parser α) : Parser (List α) := repeated p (.atLeast 0)

def many1 (p : Parser α) : Parser (List α) := repeated p (.atLeast 1)

end Backtrack.Parser
