import Backtrack.Text.Basic

/-!
Points in a text: a byte offset with the line and the column that it falls on.
-/

namespace Backtrack

/-- A point between two characters of a text. Lines and columns count from one, and columns count
characters. -/
structure Location where
  offset : Nat
  line : Nat
  column : Nat
  deriving DecidableEq

namespace Text

def takeBytes : Nat → Text → Text
  | _, [] => []
  | n, c :: t => if c.utf8Size ≤ n then c :: takeBytes (n - c.utf8Size) t else []

theorem takeBytes_prefix (n : Nat) (t : Text) : takeBytes n t <+: t := by
  fun_induction takeBytes n t with
  | case1 => exact List.prefix_rfl
  | case2 n c t hc ih => exact List.cons_prefix_cons.2 ⟨rfl, ih⟩
  | case3 => exact List.nil_prefix

theorem byteLength_takeBytes_le (n : Nat) (t : Text) : byteLength (takeBytes n t) ≤ n := by
  fun_induction takeBytes n t with
  | case1 => exact Nat.zero_le _
  | case2 n c t hc ih =>
    rw [byteLength_cons]
    omega
  | case3 => exact Nat.zero_le _

theorem takeBytes_append (s t : Text) : takeBytes (byteLength s) (s ++ t) = s := by
  induction s with
  | nil =>
    cases t with
    | nil => rfl
    | cons c t =>
      have hpos : ¬c.utf8Size ≤ 0 := Nat.not_le_of_lt c.utf8Size_pos
      exact if_neg hpos
  | cons c s ih =>
    rw [byteLength_cons, List.cons_append, takeBytes, if_pos (Nat.le_add_right ..),
      Nat.add_sub_cancel_left, ih]

def lastLine (t : Text) : Text := (t.reverse.takeWhile (· != '\n')).reverse

end Text

namespace Location

/-- The point of `input` at a byte offset. An offset past the end or inside a character stands for
the last point before it. -/
def locate (input : Text) (offset : Nat) : Location :=
  let before := input.takeBytes offset
  ⟨Text.byteLength before, before.count '\n' + 1, (Text.lastLine before).length + 1⟩

def toText (l : Location) : Text :=
  "line ".toList ++ Text.ofNat l.line ++ ", column ".toList ++ Text.ofNat l.column

end Location

end Backtrack
