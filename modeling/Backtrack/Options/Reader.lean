import Backtrack.Json.Skip
import Backtrack.Options.Basic

/-!
Reading options from JSON. They are an object, whose unknown fields are skipped and whose known
fields may stand once each, or an array of the two values in order. What is absent takes its
default. The first fault from the left decides.
-/

namespace Backtrack.Options

open Json

/-- The fault of a value that is not of the wanted type: scalars are read to their end first, so
that what is no JSON is found. -/
def faultOfOther (s : Source) : Fault :=
  match s with
  | some '[' :: _ => .mismatched
  | some '\x7b' :: _ => .mismatched
  | some 'n' :: s => faultAfter (readWord "ull".toList s)
  | some 't' :: s => faultAfter (readWord "rue".toList s)
  | some 'f' :: s => faultAfter (readWord "alse".toList s)
  | some '"' :: s => faultAfter (readString s)
  | some '-' :: s => faultAfter (readNumber s)
  | c :: s => if isDigit c then faultAfter (readNumber (c :: s)) else .malformed
  | [] => .malformed
where
  faultAfter {α : Type} : Except Fault α → Fault
    | .error fault => fault
    | .ok _ => .mismatched

def readBool (s : Source) : Except Fault (Bool × Source) :=
  match skipSpace s with
  | [] => .error .truncated
  | some 't' :: s => (readWord "rue".toList s).map (true, ·)
  | some 'f' :: s => (readWord "alse".toList s).map (false, ·)
  | s => .error (faultOfOther s)

def readLimit (s : Source) : Except Fault (Option UInt64 × Source) :=
  match skipSpace s with
  | [] => .error .truncated
  | some 'n' :: s => (readWord "ull".toList s).map (none, ·)
  | some '-' :: s =>
    match readNumber s with
    | .error fault => .error fault
    | .ok _ => .error .mismatched
  | c :: s =>
    if isDigit c then
      match readNumber (c :: s) with
      | .error fault => .error fault
      | .ok (some n, s) => .ok (some n, s)
      | .ok (none, _) => .error .mismatched
    else .error (faultOfOther (c :: s))

structure Fields where
  requireComplete : Option Bool := none
  maxAlternatives : Option (Option UInt64) := none

/-- The options with a default for every field that was not read. -/
def Fields.toOptions (f : Fields) : Options :=
  ⟨f.requireComplete.getD true, f.maxAlternatives.getD none⟩

/-- The value of a known field from its colon on, if the field is read for the first time. -/
def readKnown {α : Type} (seen : Option α) (read : Source → Except Fault (α × Source))
    (s : Source) : Except Fault (α × Source) :=
  if seen.isSome then .error .mismatched
  else
    match skipKey.colon s with
    | .error fault => .error fault
    | .ok s => read s

inductive Key where
  | requireComplete
  | maxAlternatives
  | unknown
  deriving DecidableEq

def Key.ofText (t : Text) : Key :=
  if t = "require_complete".toList then requireComplete
  else if t = "max_alternatives".toList then maxAlternatives
  else unknown

def readField (f : Fields) (s : Source) : Key → Except Fault (Fields × Source)
  | .requireComplete =>
    (readKnown f.requireComplete readBool s).map fun (b, s) => (⟨some b, f.maxAlternatives⟩, s)
  | .maxAlternatives =>
    (readKnown f.maxAlternatives readLimit s).map fun (limit, s) =>
      (⟨f.requireComplete, some limit⟩, s)
  | .unknown =>
    match skipKey.colon s with
    | .error fault => .error fault
    | .ok s => (skipValue s).map (f, ·)

def readEntry (f : Fields) (s : Source) : Except Fault (Fields × Source) :=
  match s with
  | [] => .error .truncated
  | some '"' :: s =>
    match readString s with
    | .error fault => .error fault
    | .ok (key, s) => readField f s (.ofText key)
  | _ :: _ => .error .malformed

theorem length_readBool_le {s r : Source} {b : Bool} (h : readBool s = .ok (b, r)) :
    r.length ≤ s.length := by
  have := length_skipSpace_le s
  grind [readBool, → eq_ok_of_map_eq_ok, → length_readWord_le]

theorem length_readLimit_le {s r : Source} {limit : Option UInt64}
    (h : readLimit s = .ok (limit, r)) : r.length ≤ s.length := by
  have := length_skipSpace_le s
  grind [readLimit, → eq_ok_of_map_eq_ok, → length_readWord_le, → length_readNumber_le]

theorem length_readKnown_lt {α : Type} {seen : Option α} {x : α} {s r : Source}
    {read : Source → Except Fault (α × Source)} (h : readKnown seen read s = .ok (x, r))
    (hread : ∀ s, read s = .ok (x, r) → r.length ≤ s.length) : r.length < s.length := by
  unfold readKnown at h
  split at h
  · cases h
  · split at h
    · cases h
    · next hc => exact Nat.lt_of_le_of_lt (hread _ h) (length_colon_lt hc)

theorem length_readField_lt {key : Key} {f g : Fields} {s r : Source}
    (h : readField f s key = .ok (g, r)) : r.length < s.length := by
  cases key with
  | requireComplete =>
    obtain ⟨⟨b, r'⟩, hx, he⟩ := eq_ok_of_map_eq_ok h
    cases he
    exact length_readKnown_lt hx fun _ => length_readBool_le
  | maxAlternatives =>
    obtain ⟨⟨limit, r'⟩, hx, he⟩ := eq_ok_of_map_eq_ok h
    cases he
    exact length_readKnown_lt hx fun _ => length_readLimit_le
  | unknown =>
    simp only [readField] at h
    split at h
    · cases h
    · next hc =>
      obtain ⟨x, hx, he⟩ := eq_ok_of_map_eq_ok h
      cases he
      exact Nat.lt_of_le_of_lt (length_skipValue_le hx) (length_colon_lt hc)

theorem length_readEntry_lt {f g : Fields} {s r : Source} (h : readEntry f s = .ok (g, r)) :
    r.length < s.length := by
  unfold readEntry at h
  split at h
  · cases h
  · split at h
    · cases h
    · next hs =>
      have h1 := length_readString_le hs
      have h2 := length_readField_lt h
      simp only [List.length_cons]
      omega
  · cases h

def readFields (f : Fields) (s : Source) : Except Fault (Fields × Source) :=
  match hs : skipSpace s with
  | [] => .error .truncated
  | some '\x7d' :: r => .ok (f, r)
  | some ',' :: r =>
    have := length_skipSpace_lt hs
    have := length_skipSpace_le r
    match h : readEntry f (skipSpace r) with
    | .error fault => .error fault
    | .ok (g, r') =>
      have := length_readEntry_lt h
      readFields g r'
  | _ :: _ => .error .malformed
termination_by s.length

def readObject (s : Source) : Except Fault (Fields × Source) :=
  match skipSpace s with
  | some '\x7d' :: s => .ok ({}, s)
  | s =>
    match readEntry {} s with
    | .error fault => .error fault
    | .ok (f, s) => readFields f s

/-- Options from the two values of an array, from behind its opening bracket. -/
def readArray (s : Source) : Except Fault (Fields × Source) :=
  match skipSpace s with
  | [] => .error .truncated
  | some ']' :: s => .ok ({}, s)
  | s =>
    match readBool s with
    | .error fault => .error fault
    | .ok (b, s) =>
      match skipSpace s with
      | [] => .error .truncated
      | some ']' :: s => .ok (⟨some b, none⟩, s)
      | some ',' :: s =>
        match skipSpace s with
        | some ']' :: _ => .error .malformed
        | s =>
          match readLimit s with
          | .error fault => .error fault
          | .ok (limit, s) =>
            match skipSpace s with
            | [] => .error .truncated
            | some ']' :: s => .ok (⟨some b, some limit⟩, s)
            | _ :: _ => .error .malformed
      | _ :: _ => .error .malformed

/-- Options from a stored JSON text, which holds nothing else. -/
def read (s : Source) : Except Fault Options :=
  match skipSpace s with
  | [] => .error .truncated
  | some '\x7b' :: s => finish (readObject s)
  | some '[' :: s => finish (readArray s)
  | s => .error (faultOfOther s)
where
  finish : Except Fault (Fields × Source) → Except Fault Options
    | .error fault => .error fault
    | .ok (f, s) => if (skipSpace s).isEmpty then .ok f.toOptions else .error .malformed

def ofText (t : Text) : Except Fault Options := read (t.map some)

def ofBytes (bytes : List UInt8) : Except Fault Options := read (Utf8.decode bytes)

end Backtrack.Options
