import Backtrack.Json.Numbers
import Backtrack.Json.Strings

/-!
Skipping a JSON value that does not matter. The value must be well formed; it may be nested to
any depth, so the brackets that are still open are kept in a list.
-/

namespace Backtrack.Json

inductive Bracket where
  | array
  | object
  deriving DecidableEq

/-- What has to come next: a value, the first item or the first key behind an opening bracket, a
key behind a comma, or what follows a value inside the innermost open bracket. -/
inductive Expected where
  | value
  | firstItem
  | firstKey
  | key
  | separator
  deriving DecidableEq

def skipScalar : Source → Except Fault Source
  | [] => .error .truncated
  | some 'n' :: s => readWord "ull".toList s
  | some 't' :: s => readWord "rue".toList s
  | some 'f' :: s => readWord "alse".toList s
  | some '"' :: s => skipString s
  | some '-' :: s => skipNumber s
  | c :: s => if isDigit c then skipNumber (c :: s) else .error .malformed

def skipKey : Source → Except Fault Source
  | [] => .error .truncated
  | some '"' :: s =>
    match skipString s with
    | .error fault => .error fault
    | .ok s => colon s
  | _ :: _ => .error .malformed
where
  colon (s : Source) : Except Fault Source :=
    match skipSpace s with
    | [] => .error .truncated
    | some ':' :: s => .ok s
    | _ :: _ => .error .malformed

theorem length_skipScalar_lt {s r : Source} (h : skipScalar s = .ok r) : r.length < s.length := by
  unfold skipScalar at h
  split at h
  · cases h
  · exact Nat.lt_succ_of_le (length_readWord_le h)
  · exact Nat.lt_succ_of_le (length_readWord_le h)
  · exact Nat.lt_succ_of_le (length_readWord_le h)
  · exact Nat.lt_succ_of_le (length_skipString_le h)
  · exact Nat.lt_succ_of_lt (length_skipNumber_lt h)
  · split at h
    · exact length_skipNumber_lt h
    · cases h

theorem length_skipSpace_lt {s r : Source} {c : Option Char} (h : skipSpace s = c :: r) :
    r.length < s.length := by
  have := length_skipSpace_le s
  rw [h] at this
  exact this

theorem length_colon_lt {s r : Source} (h : skipKey.colon s = .ok r) : r.length < s.length := by
  unfold skipKey.colon at h
  split at h
  · cases h
  · next heq =>
    cases h
    exact length_skipSpace_lt heq
  · cases h

theorem length_skipKey_lt {s r : Source} (h : skipKey s = .ok r) : r.length < s.length := by
  unfold skipKey at h
  split at h
  · cases h
  · split at h
    · cases h
    · next hs =>
      have := length_skipString_le hs
      have := length_colon_lt h
      simp only [List.length_cons]
      omega
  · cases h

def Bracket.closing : Bracket → Option Char
  | array => some ']'
  | object => some '\x7d'

def Bracket.afterComma : Bracket → Expected
  | array => .value
  | object => .key

/-- A position at which a step may go on without taking a symbol has rank one. -/
def Expected.rank : Expected → Nat
  | firstItem => 1
  | firstKey => 1
  | _ => 0

theorem Bracket.rank_afterComma (b : Bracket) : b.afterComma.rank = 0 := by
  cases b <;> rfl

/-- What follows the value that the brackets still open make up, of which `s` is left. -/
def skipFrom (expected : Expected) (brackets : List Bracket) (s : Source) :
    Except Fault Source :=
  have := length_skipSpace_le s
  match expected with
  | .value =>
    match hs : skipSpace s with
    | some '[' :: r =>
      have := length_skipSpace_lt hs
      skipFrom .firstItem (.array :: brackets) r
    | some '\x7b' :: r =>
      have := length_skipSpace_lt hs
      skipFrom .firstKey (.object :: brackets) r
    | r =>
      match h : skipScalar r with
      | .error fault => .error fault
      | .ok r' =>
        have := length_skipScalar_lt h
        have := congrArg List.length hs
        skipFrom .separator brackets r'
  | .firstItem =>
    match hs : skipSpace s with
    | [] => .error .truncated
    | some ']' :: r =>
      have := length_skipSpace_lt hs
      skipFrom .separator brackets.tail r
    | _ :: _ => skipFrom .value brackets (skipSpace s)
  | .firstKey =>
    match hs : skipSpace s with
    | [] => .error .truncated
    | some '\x7d' :: r =>
      have := length_skipSpace_lt hs
      skipFrom .separator brackets.tail r
    | _ :: _ => skipFrom .key brackets (skipSpace s)
  | .key =>
    match h : skipKey (skipSpace s) with
    | .error fault => .error fault
    | .ok r =>
      have := length_skipKey_lt h
      skipFrom .value brackets r
  | .separator =>
    match brackets with
    | [] => .ok s
    | b :: outer =>
      match hs : skipSpace s with
      | [] => .error .truncated
      | c :: r =>
        have := length_skipSpace_lt hs
        have := b.rank_afterComma
        if c = some ',' then skipFrom b.afterComma (b :: outer) r
        else if c = b.closing then skipFrom .separator outer r
        else .error .malformed
termination_by 2 * s.length + expected.rank
decreasing_by all_goals simp only [Expected.rank] at *; omega

def skipValue (s : Source) : Except Fault Source := skipFrom .value [] s

theorem length_skipFrom_le {expected : Expected} {brackets : List Bracket} {s r : Source}
    (h : skipFrom expected brackets s = .ok r) : r.length ≤ s.length := by
  fun_induction skipFrom expected brackets s <;> grind

theorem length_skipValue_le {s r : Source} (h : skipValue s = .ok r) : r.length ≤ s.length :=
  length_skipFrom_le h

end Backtrack.Json
