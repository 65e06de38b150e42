import Backtrack.Json.Basic
import Backtrack.Text.Integer

/-!
The values that grammars produce. A character is a text of length one; every combinator that
joins values has a form of its own, so a value shows how it was parsed.
-/

namespace Backtrack

/-- A value of a grammar. `none` and `some` are the values of an optional part. -/
inductive Value where
  | text (s : Text)
  | int (n : Int64)
  | float (x : Float)
  | unit
  | pair (first second : Value)
  | list (items : List Value)
  | none
  | some (v : Value)

namespace Value

/-- The texts in a value, from left to right. Numbers are written in decimal. -/
def toText : Value → Text
  | text s => s
  | int n => Text.ofInt n.toInt
  | float x => Json.numberText x
  | unit => []
  | pair a b => toText a ++ toText b
  | list vs => itemsText vs
  | none => []
  | some v => toText v
where
  itemsText : List Value → Text
    | [] => []
    | v :: vs => toText v ++ itemsText vs

/-- The sum of all integers in a value, modulo `2 ^ 64`. -/
def sum : Value → Int64
  | int n => n
  | pair a b => sum a + sum b
  | list vs => itemsSum vs
  | some v => sum v
  | _ => 0
where
  itemsSum : List Value → Int64
    | [] => 0
    | v :: vs => sum v + itemsSum vs

def depth : Value → Nat
  | pair a b => 1 + max (depth a) (depth b)
  | list vs => 1 + itemsDepth vs
  | some v => 1 + depth v
  | _ => 0
where
  itemsDepth : List Value → Nat
    | [] => 0
    | v :: vs => max (depth v) (itemsDepth vs)

def first : Value → Value
  | pair a _ => a
  | v => v

def second : Value → Value
  | pair _ b => b
  | v => v

def items : Value → List Value
  | list vs => vs
  | _ => []

/-- The count that a value stands for: the number it spells, or else how many characters its
text has. -/
def count (v : Value) : UInt64 :=
  (Text.readCount? v.toText).getD (UInt64.ofNat v.toText.length)

/-- The JSON form of a value. Pairs become arrays, and what is absent becomes `null`. -/
def toJson : Value → Json
  | text s => .string s
  | int n => .integer n.toInt
  | float x => .ofFloat x
  | unit => .null
  | pair a b => .array [toJson a, toJson b]
  | list vs => .array (itemsJson vs)
  | none => .null
  | some v => toJson v
where
  itemsJson : List Value → List Json
    | [] => []
    | v :: vs => toJson v :: itemsJson vs

end Value

end Backtrack
