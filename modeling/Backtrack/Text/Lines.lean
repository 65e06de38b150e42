import Backtrack.Text.Blank

/-!
The lines of a text.
-/

namespace Backtrack.Text

def dropReturn (line : Text) : Text :=
  if line.getLast? = some '\r' then line.dropLast else line

/-- The lines of a text. Each ends with a newline, with or without a carriage return before it,
but for the last, which may end with the text. -/
def lines (t : Text) : List Text :=
  match h : t.dropWhile (· != '\n') with
  | [] => if t.isEmpty then [] else [t]
  | _ :: rest =>
    have : rest.length < t.length := by
      have := (List.dropWhile_suffix (l := t) (· != '\n')).length_le
      rw [h] at this
      exact this
    dropReturn (t.takeWhile (· != '\n')) :: lines rest
termination_by t.length

/-- The lines that are not all white space, with their numbers in the whole text. -/
def numberedLines (t : Text) : List (Nat × Text) :=
  ((lines t).zipIdx 1).filterMap fun (line, n) => if line.all isBlank then none else some (n, line)

end Backtrack.Text
