import Backtrack.Decimal

/-!
JSON values and their compact text: no space between tokens, strings escaped only where JSON
demands it. Objects keep the order of their fields; `Json.sorted` builds one with fields in the
order of their keys.
-/

namespace Backtrack

/-- A JSON value. Integers are kept apart from other numbers, because they are written without a
point. -/
inductive Json where
  | null
  | bool (b : Bool)
  | integer (n : Int)
  | number (x : Float)
  | string (s : Text)
  | array (items : List Json)
  | object (fields : List (Text × Json))

namespace Json

/-- Numbers are written plainly from `0.00001` up to sixteen digits before the point. -/
def numberStyle : Decimal.Style := ⟨-5, 16⟩

/-- The text of a number. One that is not finite has none of its own and is written as `null`. -/
def numberText (x : Float) : Text := (Decimal.ofFloat? numberStyle x).getD "null".toList

def ofFloat (x : Float) : Json := if x.isFinite then number x else null

def escape (c : Char) : Text :=
  match c with
  | '"' => ['\\', '"']
  | '\\' => ['\\', '\\']
  | '\x08' => ['\\', 'b']
  | '\x0c' => ['\\', 'f']
  | '\n' => ['\\', 'n']
  | '\r' => ['\\', 'r']
  | '\t' => ['\\', 't']
  | c =>
    if c.toNat < 0x20 then
      ['\\', 'u', '0', '0', Nat.digitChar (c.toNat / 16), Nat.digitChar (c.toNat % 16)]
    else [c]

def quote (s : Text) : Text := '"' :: s.flatMap escape ++ ['"']

def toText : Json → Text
  | null => "null".toList
  | bool b => (if b then "true" else "false").toList
  | integer n => Text.ofInt n
  | number x => numberText x
  | string s => quote s
  | array items => '[' :: itemsText items ++ [']']
  | object fields => '\x7b' :: fieldsText fields ++ ['\x7d']
where
  itemsText : List Json → Text
    | [] => []
    | [v] => toText v
    | v :: vs => toText v ++ ',' :: itemsText vs
  fieldsText : List (Text × Json) → Text
    | [] => []
    | [(k, v)] => quote k ++ ':' :: toText v
    | (k, v) :: fs => quote k ++ ':' :: toText v ++ ',' :: fieldsText fs

/-- The fields with `k` bound to `v`, in the order of their keys. A field of that key is
replaced. -/
def insertField (k : Text) (v : Json) : List (Text × Json) → List (Text × Json)
  | [] => [(k, v)]
  | (k', v') :: fs =>
    if k = k' then (k, v) :: fs
    else if k < k' then (k, v) :: (k', v') :: fs
    else (k', v') :: insertField k v fs

/-- The object whose fields stand in the order of their keys. The last binding of a key wins. -/
def sorted (fields : List (Text × Json)) : Json :=
  object (fields.foldl (fun fs (k, v) => insertField k v fs) [])

end Json

end Backtrack
