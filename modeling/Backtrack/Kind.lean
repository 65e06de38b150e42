import Backtrack.Grammar.Classes
import Backtrack.Grammar.Rules

/-!
Ready-made grammars, whose values are given as JSON.
-/

namespace Backtrack

/-- The ready-made grammars: an integer, integers between commas, a decimal with a fraction, words
between white space, and keys with an integer or a word each. -/
inductive Kind where
  | int
  | ints
  | float
  | words
  | keyValue
  deriving DecidableEq

namespace Kind

open Grammar (char digit whitespace many many1 separatedBy name)

def all : List Kind := [int, ints, float, words, keyValue]

def toName : Kind → Text
  | int => "int".toList
  | ints => "ints".toList
  | float => "float".toList
  | words => "words".toList
  | keyValue => "key-value".toList

def ofName? (t : Text) : Option Kind := all.find? (·.toName == t)

/-- The kind of a name in which ASCII letters of either case count as the same. -/
def ofNameAnyCase? (t : Text) : Option Kind := ofName? (t.map Char.toLower)

def comma : Grammar := .and (char ',') (many whitespace)

def padded (p : Grammar) : Grammar := .map (.and p (many whitespace)) Value.first

def decimal : Grammar :=
  .bind (.and (.optional (char '-')) (.and (many1 digit) (.and (char '.') (many1 digit)))) fun v =>
    match Decimal.read? v.toText with
    | some x => .succeed (.float x)
    | none => .fail

def binding : Grammar := .and (padded name) (.and (padded (char '=')) (.or .int name))

def grammar : Kind → Grammar
  | int => .int
  | ints => separatedBy .int comma
  | float => decimal
  | words => separatedBy name (many1 whitespace)
  | keyValue => separatedBy binding comma

/-- The JSON form of a value of the kind's grammar. Bindings make up an object. -/
def toJson : Kind → Value → Json
  | keyValue, v => .sorted (v.items.map fun b => (b.first.toText, b.second.second.toJson))
  | _, v => v.toJson

def parser (k : Kind) : Parser Json := (k.grammar.under []).map k.toJson

end Kind

end Backtrack
