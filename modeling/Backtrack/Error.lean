import Backtrack.Bounds
import Backtrack.Json.Scan
import Backtrack.Run

/-!
All errors of the library under one type, each with its message.
-/

namespace Backtrack

inductive Error where
  | parse (e : ParseError)
  | grammar (e : GrammarError)
  | unreadable
  | options (fault : Json.Fault)
  | internal (message : Text)
  deriving DecidableEq

/-- The error in words. What the file system says about an unreadable file, and what the reader of
JSON says about options that it refuses, belongs behind a colon at the end of the message. Their
words are not known here and left out. -/
def Error.message : Error → Text
  | parse e => "Parse error: ".toList ++ e.message
  | grammar e => "Grammar error: ".toList ++ e.message
  | unreadable => "IO error".toList
  | options _ => "Config error".toList
  | internal message => "Internal error: ".toList ++ message

end Backtrack
