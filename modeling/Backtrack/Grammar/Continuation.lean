import Backtrack.Grammar.Basic

/-!
Ways to go on after a value: the functions that join two grammars by `Grammar.bind`.
-/

namespace Backtrack.Grammar

def keeping (p : Grammar) (v : Value) : Grammar := map p (.pair v)

/-- Go on with as many `p` as the value counts. -/
def counted (p : Grammar) (v : Value) : Grammar := repeated p (.exactly v.count)

def again (v : Value) : Grammar := literal v.toText

/-- Go on with the first grammar listed for the text of the value, or else with `other`. -/
def byText (cases : List (Text × Grammar)) (other : Grammar) (v : Value) : Grammar :=
  (cases.lookup v.toText).getD other

end Backtrack.Grammar
