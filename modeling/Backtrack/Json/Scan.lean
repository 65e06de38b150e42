import Backtrack.Text.Integer
import Backtrack.Text.Utf8

/-!
Tokens of JSON, read from the start of a stored text. Every reader gives back what follows its
token, or says what is wrong at the first place where something is.
-/

namespace Backtrack.Json

/-- What can be wrong with a JSON text: it is no JSON, it is JSON of another shape than the one
wanted, or it ends too early. -/
inductive Fault where
  | malformed
  | mismatched
  | truncated
  deriving DecidableEq

def isSpace (c : Option Char) : Bool :=
  c = some ' ' || c = some '\n' || c = some '\t' || c = some '\r'

def skipSpace (s : Source) : Source := s.dropWhile isSpace

def readWord : Text → Source → Except Fault Source
  | [], s => .ok s
  | _ :: _, [] => .error .truncated
  | c :: cs, x :: s => if x = some c then readWord cs s else .error .malformed

def isDigit (c : Option Char) : Bool := c.any Char.isDigit

def leadingDigits (s : Source) : Text := (s.takeWhile isDigit).filterMap id

def skipDigits (s : Source) : Source := s.dropWhile isDigit

def hexValue? : Option Char → Option Nat
  | none => none
  | some c =>
    if c.isDigit then some (c.toNat - '0'.toNat)
    else if 'a' ≤ c && c ≤ 'f' then some (c.toNat - 'a'.toNat + 10)
    else if 'A' ≤ c && c ≤ 'F' then some (c.toNat - 'A'.toNat + 10)
    else none

def symbolSize (c : Option Char) : Nat := (c.map Char.utf8Size).getD 1

/-- Four hexadecimal digits. The text is too short only if it has fewer than four bytes left. -/
def readFourHex (s : Source) : Except Fault (Nat × Source) :=
  if (s.take 4).foldr (fun x n => symbolSize x + n) 0 < 4 then .error .truncated
  else
    match (s.take 4).mapM hexValue? with
    | some [a, b, c, d] => .ok (((a * 16 + b) * 16 + c) * 16 + d, s.drop 4)
    | _ => .error .malformed

def simpleEscape? : Option Char → Option Char
  | some '"' => some '"'
  | some '\\' => some '\\'
  | some '/' => some '/'
  | some 'b' => some '\x08'
  | some 'f' => some '\x0c'
  | some 'n' => some '\n'
  | some 'r' => some '\r'
  | some 't' => some '\t'
  | _ => none

/-- The second half of a surrogate pair, whose first half was `high`. -/
def readLowSurrogate (high : Nat) : Source → Except Fault (Char × Source)
  | [] => .error .truncated
  | [c] => .error (if c = some '\\' then .truncated else .malformed)
  | c :: u :: s =>
    if c = some '\\' && u = some 'u' then
      match readFourHex s with
      | .error fault => .error fault
      | .ok (low, s) =>
        if 0xdc00 ≤ low && low < 0xe000 then
          .ok (.ofNat ((high - 0xd800) * 0x400 + (low - 0xdc00) + 0x10000), s)
        else .error .malformed
    else .error .malformed

/-- The character that the rest of an escape after the backslash denotes. Surrogates count only
in pairs. -/
def readEscape : Source → Except Fault (Char × Source)
  | [] => .error .truncated
  | some 'u' :: s =>
    match readFourHex s with
    | .error fault => .error fault
    | .ok (n, s) =>
      if 0xdc00 ≤ n && n < 0xe000 then .error .malformed
      else if 0xd800 ≤ n && n < 0xdc00 then readLowSurrogate n s
      else .ok (.ofNat n, s)
  | c :: s =>
    match simpleEscape? c with
    | some c => .ok (c, s)
    | none => .error .malformed

def skipEscape : Source → Except Fault Source
  | [] => .error .truncated
  | some 'u' :: s => (readFourHex s).map Prod.snd
  | c :: s => if (simpleEscape? c).isSome then .ok s else .error .malformed

def isControl (c : Option Char) : Bool := c.any (·.toNat < 0x20)

theorem eq_ok_of_map_eq_ok {α β : Type} {e : Except Fault α} {f : α → β} {y : β}
    (h : e.map f = .ok y) : ∃ x, e = .ok x ∧ f x = y := by
  cases e with
  | error => cases h
  | ok x => exact ⟨x, rfl, Except.ok.inj h⟩

theorem length_skipSpace_le (s : Source) : (skipSpace s).length ≤ s.length :=
  (List.dropWhile_suffix _).length_le

theorem length_skipDigits_le (s : Source) : (skipDigits s).length ≤ s.length :=
  (List.dropWhile_suffix _).length_le

theorem length_readWord_le {w : Text} {s r : Source} (h : readWord w s = .ok r) :
    r.length ≤ s.length := by
  fun_induction readWord w s with
  | case1 => cases h; simp
  | case2 => cases h
  | case3 c cs s ih => exact Nat.le_succ_of_le (ih h)
  | case4 => cases h

theorem length_readFourHex_le {s r : Source} {n : Nat} (h : readFourHex s = .ok (n, r)) :
    r.length ≤ s.length := by
  unfold readFourHex at h
  split at h
  · cases h
  · split at h
    · cases h; simp
    · cases h

theorem length_skipEscape_le {s r : Source} (h : skipEscape s = .ok r) : r.length ≤ s.length := by
  unfold skipEscape at h
  split at h
  · cases h
  · next s =>
    obtain ⟨x, hx, rfl⟩ := eq_ok_of_map_eq_ok h
    exact Nat.le_succ_of_le (length_readFourHex_le hx)
  · split at h
    · cases h; simp
    · cases h

end Backtrack.Json
