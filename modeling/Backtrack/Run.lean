import Backtrack.Options.Basic
import Backtrack.Parser.Basic
import Backtrack.Text.Location
import Backtrack.Text.Quoted

/-!
Running a parser for one result: the alternatives are examined in order until one is acceptable
under the options. If none is, the error tells how far the best of them got.
-/

namespace Backtrack

/-- Why a run has no result. `incomplete` and `limitReached` are located at the furthest point
that an examined alternative reached. -/
inductive ParseError where
  | noParse (location : Location)
  | incomplete (location : Location) (remaining : Text)
  | limitReached (limit : UInt64) (location : Location)
  deriving DecidableEq

def ParseError.message : ParseError → Text
  | noParse location => "No parse at ".toList ++ location.toText
  | incomplete location remaining =>
    "Incomplete parse at ".toList ++ location.toText ++ ": unconsumed ".toList ++
      remaining.quoted
  | limitReached limit location =>
    "Gave up after ".toList ++ Text.ofNat limit.toNat ++ " alternatives at ".toList ++
      location.toText

/-- A finished run: its result, how many alternatives it pulled and the calls it made. There is
no result if the alternatives were cut off before one was accepted. -/
structure Report (α : Type) where
  result : Option (Except ParseError α)
  pulled : Nat
  calls : List Call

def Location.ofRest (input rest : Text) : Location :=
  .locate input (input.byteLength - rest.byteLength)

namespace Alternatives

variable {α : Type}

/-- The shorter of two texts that were left over, the earlier one if they are equally long. -/
def shorterRest (furthest : Option Text) (rest : Text) : Text :=
  match furthest with
  | some earlier => if rest.byteLength < earlier.byteLength then rest else earlier
  | none => rest

/-- Examine the alternatives in order, after `examined` others that left over `furthest` at
best. The limit is tested on an alternative that has been pulled already, and before it is
looked at. -/
def select (input : Text) (o : Options) (examined : Nat) (furthest : Option Text)
    (earlier : List Call) : Alternatives α → Report α
  | exhausted calls =>
    let error :=
      match furthest with
      | some rest => ParseError.incomplete (.ofRest input rest) rest
      | none => ParseError.noParse (.locate input 0)
    ⟨some (.error error), examined, earlier ++ calls⟩
  | cutOff calls => ⟨none, examined, earlier ++ calls⟩
  | next calls a tail =>
    match o.maxAlternatives.filter (·.toNat ≤ examined) with
    | some limit =>
      let location :=
        match furthest with
        | some rest => Location.ofRest input rest
        | none => .locate input 0
      ⟨some (.error (.limitReached limit location)), examined + 1, earlier ++ calls⟩
    | none =>
      if !o.requireComplete || a.rest.isEmpty then
        ⟨some (.ok a.value), examined + 1, earlier ++ calls⟩
      else
        select input o (examined + 1) (some (shorterRest furthest a.rest)) (earlier ++ calls)
          (tail ())

end Alternatives

namespace Parser

variable {α : Type}

def run (p : Parser α) (o : Options) (input : Text) : Report α :=
  let opened := p input
  (opened.alternatives ()).select input o 0 none opened.calls

def runFirst (p : Parser α) (input : Text) : Report α := p.run .partially input

def runComplete (p : Parser α) (input : Text) : Report α := p.run {} input

end Parser

end Backtrack
