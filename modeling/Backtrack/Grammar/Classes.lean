import Backtrack.Grammar.Basic
import Backtrack.Text.Blank

/-!
Grammars for single characters of a class and for small texts: integers, names and lines. Letters
and digits are those of ASCII.
-/

namespace Backtrack.Grammar

def char (c : Char) : Grammar := satisfy (· == c)

def digit : Grammar := satisfy Char.isDigit

def upper : Grammar := satisfy Char.isUpper

def lower : Grammar := satisfy Char.isLower

def alpha : Grammar := or upper lower

def alphanumeric : Grammar := or alpha digit

/-- A white-space character other than the newline, which belongs to `line`. -/
def whitespace : Grammar := satisfy fun c => Text.isBlank c && c != '\n'

/-- A decimal integer with an optional minus sign. Every run of digits from the start is offered,
the longest first, but for those that exceed 64 bits. -/
def int : Grammar :=
  bind (and (optional (char '-')) (many1 digit)) fun v =>
    match Text.readInt64? v.toText with
    | some n => succeed (.int n)
    | none => fail

def asText (v : Value) : Value := .text v.toText

def name : Grammar := map (many1 alpha) asText

def line : Grammar := map (and (many (satisfy (· != '\n'))) (char '\n')) asText

end Backtrack.Grammar
