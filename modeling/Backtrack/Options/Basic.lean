import Backtrack.Json.Basic

/-!
Options of a run, and their JSON form.
-/

namespace Backtrack

/-- How a run picks its result: whether it accepts only an alternative that leaves nothing over,
and how many alternatives it examines at most. -/
structure Options where
  requireComplete : Bool := true
  maxAlternatives : Option UInt64 := none
  deriving DecidableEq

namespace Options

def partially : Options := ⟨false, none⟩

def toJson (o : Options) : Json :=
  .object [
    ("require_complete".toList, .bool o.requireComplete),
    ("max_alternatives".toList,
      match o.maxAlternatives with
      | none => .null
      | some n => .integer n.toNat)]

def toText (o : Options) : Text := o.toJson.toText

end Options

end Backtrack
