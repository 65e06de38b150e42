import Backtrack.Json.Scan

/-!
Strings of a JSON text, from behind the opening quote. A string whose characters are wanted must
hold characters only; one that is skipped may hold anything that its escapes and its end allow.
-/

namespace Backtrack.Json

theorem length_readLowSurrogate_le {high : Nat} {s r : Source} {c : Char}
    (h : readLowSurrogate high s = .ok (c, r)) : r.length ≤ s.length := by
  unfold readLowSurrogate at h
  split at h
  · cases h
  · cases h
  · split at h
    · split at h
      · cases h
      · next heq =>
        split at h
        · simp only [Except.ok.injEq, Prod.mk.injEq] at h
          obtain ⟨-, rfl⟩ := h
          have := length_readFourHex_le heq
          simp only [List.length_cons]
          omega
        · cases h
    · cases h

theorem length_readEscape_le {s r : Source} {c : Char} (h : readEscape s = .ok (c, r)) :
    r.length ≤ s.length := by
  unfold readEscape at h
  split at h
  · cases h
  · split at h
    · cases h
    · next heq =>
      have := length_readFourHex_le heq
      split at h
      · cases h
      · split at h
        · have := length_readLowSurrogate_le h
          simp only [List.length_cons]
          omega
        · cases h
          simp only [List.length_cons]
          omega
  · split at h
    · cases h; simp
    · cases h

/-- The content of a string, gaps included, and what follows its closing quote. -/
def readContent : Source → Except Fault (Source × Source)
  | [] => .error .truncated
  | some '"' :: s => .ok ([], s)
  | some '\\' :: s =>
    match h : readEscape s with
    | .error fault => .error fault
    | .ok (c, r) =>
      have := length_readEscape_le h
      (readContent r).map fun (cs, s) => (some c :: cs, s)
  | c :: s =>
    if isControl c then .error .malformed
    else (readContent s).map fun (cs, s) => (c :: cs, s)
termination_by s => s.length

def readString (s : Source) : Except Fault (Text × Source) :=
  match readContent s with
  | .error fault => .error fault
  | .ok (cs, r) =>
    match cs.mapM id with
    | some t => .ok (t, r)
    | none => .error .malformed

def skipString : Source → Except Fault Source
  | [] => .error .truncated
  | some '"' :: s => .ok s
  | some '\\' :: s =>
    match h : skipEscape s with
    | .error fault => .error fault
    | .ok r =>
      have := length_skipEscape_le h
      skipString r
  | c :: s => if isControl c then .error .malformed else skipString s
termination_by s => s.length

theorem length_readContent_le {s r cs : Source} (h : readContent s = .ok (cs, r)) :
    r.length ≤ s.length := by
  fun_induction readContent s generalizing cs r with
  | case1 => cases h
  | case2 => cases h; simp
  | case3 s fault hf => cases h
  | case4 s c t ht this ih =>
    obtain ⟨x, hx, he⟩ := eq_ok_of_map_eq_ok h
    cases he
    have := ih hx
    simp only [List.length_cons]
    omega
  | case5 => cases h
  | case6 c s _ _ _ ih =>
    obtain ⟨x, hx, he⟩ := eq_ok_of_map_eq_ok h
    cases he
    have := ih hx
    simp only [List.length_cons]
    omega

theorem length_readString_le {s r : Source} {t : Text} (h : readString s = .ok (t, r)) :
    r.length ≤ s.length := by
  unfold readString at h
  split at h
  · cases h
  · next hc =>
    split at h
    · cases h; exact length_readContent_le hc
    · cases h

theorem length_skipString_le {s r : Source} (h : skipString s = .ok r) :
    r.length ≤ s.length := by
  fun_induction skipString s with
  | case1 => cases h
  | case2 => cases h; simp
  | case3 => cases h
  | case4 s t ht this ih =>
    have := ih h
    simp only [List.length_cons]
    omega
  | case5 => cases h
  | case6 c s _ _ _ ih =>
    have := ih h
    simp only [List.length_cons]
    omega

end Backtrack.Json
