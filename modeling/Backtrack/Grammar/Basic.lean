import Backtrack.Parser.Repetition
import Backtrack.Value

/-!
Grammars as data. A grammar describes a parser of values by the combinators it is made of; it may
refer to rules by name, and the parser it stands for depends on what these names mean.
-/

namespace Backtrack

/-- A grammar. `bind` goes on with a grammar that depends on the value so far, `delayed` is worked
out when it is used, `rule` refers to a named grammar, and `probe` labels a grammar so that its
calls are recorded. -/
inductive Grammar where
  | any
  | satisfy (accepts : Char → Bool)
  | literal (s : Text)
  | succeed (v : Value)
  | fail
  | endOfInput
  | bind (p : Grammar) (f : Value → Grammar)
  | and (p q : Grammar)
  | or (p q : Grammar)
  | choice (ps : List Grammar)
  | sequence (ps : List Grammar)
  | map (p : Grammar) (f : Value → Value)
  | repeated (p : Grammar) (b : Bounds)
  | optional (p : Grammar)
  | delayed (p : Unit → Grammar)
  | rule (name : String)
  | probe (label : String) (p : Grammar)

namespace Grammar

def ofOption : Option Value → Value
  | none => .none
  | some v => .some v

/-- The parser that a grammar stands for, when `rules` gives the parsers of the rules. -/
def parser (rules : String → Parser Value) : Grammar → Parser Value
  | any => Parser.any.map fun c => .text [c]
  | satisfy accepts => (Parser.satisfy accepts).map fun c => .text [c]
  | literal s => (Parser.literal s).map .text
  | succeed v => Parser.succeed v
  | fail => Parser.fail
  | endOfInput => Parser.endOfInput.map fun _ => .unit
  | bind p f => (parser rules p).bind fun v => parser rules (f v)
  | and p q => ((parser rules p).and (parser rules q)).map fun (v, w) => .pair v w
  | or p q => (parser rules p).or (parser rules q)
  | choice ps => Parser.choice (parsers rules ps)
  | sequence ps => (Parser.sequence (parsers rules ps)).map .list
  | map p f => (parser rules p).map f
  | repeated p b => ((parser rules p).repeated b).map .list
  | optional p => (parser rules p).optional.map ofOption
  | delayed p => parser rules (p ())
  | rule name => rules name
  | probe label p => (parser rules p).probe label
where
  parsers (rules : String → Parser Value) : List Grammar → List (Parser Value)
    | [] => []
    | p :: ps => parser rules p :: parsers rules ps

theorem parsers_eq_map (rules : String → Parser Value) (ps : List Grammar) :
    parser.parsers rules ps = ps.map (parser rules) := by
  induction ps with
  | nil => rfl
  | cons p ps ih => simp [parser.parsers, ih]

def many (p : Grammar) : Grammar := repeated p (.atLeast 0)

def many1 (p : Grammar) : Grammar := repeated p (.atLeast 1)

def separatedItems : Value → Value
  | .pair leading last => .list (leading.items.map Value.first ++ [last])
  | v => v

/-- One or more items with separators between them. Only the items make up the value, and a
separator after the last item is left over. -/
def separatedBy (item separator : Grammar) : Grammar :=
  map (and (many (and item separator)) item) separatedItems

def surroundedBy (content before after : Grammar) : Grammar :=
  map (and before (and content after)) fun v => v.second.first

end Grammar

end Backtrack
