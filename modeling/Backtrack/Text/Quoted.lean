import Backtrack.Text.Combining
import Backtrack.Text.Printable

/-!
Quoted texts, as error messages show them: in double quotes, with every character escaped that
would end the quotes or cannot be seen on its own.
-/

namespace Backtrack.Text

def hexDigits (n : Nat) : Text := Nat.toDigits 16 n

/-- A character between quotes: six characters have an escape of their own, and hidden and
combining characters are given by their code point. -/
def escapeQuoted (c : Char) : Text :=
  match c with
  | '"' => ['\\', '"']
  | '\\' => ['\\', '\\']
  | '\n' => ['\\', 'n']
  | '\r' => ['\\', 'r']
  | '\t' => ['\\', 't']
  | '\x00' => ['\\', '0']
  | c =>
    if isHidden c || isCombining c then
      '\\' :: 'u' :: '\x7b' :: hexDigits c.toNat ++ ['\x7d']
    else [c]

def quoted (t : Text) : Text := '"' :: t.flatMap escapeQuoted ++ ['"']

end Backtrack.Text
