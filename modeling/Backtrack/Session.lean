import Backtrack.Run

/-!
A session works on one input with several sequences of alternatives at once. Each sequence has a
number, and steps of different sequences may be mixed in any order.
-/

namespace Backtrack

/-- A sequence that was opened: the text that its last alternative left over, or at first the text
it was opened on, and what is still to be pulled, which is not worked out before it is pulled.
Nothing is left to be pulled once the sequence was dropped or counted. -/
structure OpenSequence (α : Type) where
  rest : Text
  pending : Option (Unit → Alternatives α)

/-- The input of all sequences that are started afresh, the parsers that are still there, and the
sequences. -/
structure Session (α : Type) where
  input : Text
  parsers : List (Option (Parser α))
  sequences : List (Nat × OpenSequence α)

namespace Session

variable {α : Type}

/-- One operation. Parsers are named by their position, sequences by their number. -/
inductive Step where
  | start (id parser : Nat)
  | startOnRest (id parser earlier : Nat)
  | next (id : Nat)
  | count (id : Nat)
  | drop (id : Nat)
  | forget (parser : Nat)
  | run (parser : Nat) (options : Options)
  deriving DecidableEq

/-- What a step answers. A step on a number that nothing has answers `unknown`. -/
inductive Answer (α : Type) where
  | started
  | startedOnRest (bytes : Nat)
  | pulled (alternative : Option (Alternative α))
  | counted (n : Nat)
  | dropped
  | forgotten
  | ran (result : Option (Except ParseError α))
  | unknown

structure Effect (α : Type) where
  answer : Answer α
  calls : List Call
  session : Session α

def begin (input : Text) (parsers : List (Parser α)) : Session α :=
  ⟨input, parsers.map some, []⟩

def parser? (s : Session α) (p : Nat) : Option (Parser α) := s.parsers[p]?.join

/-- The sequence of a number, also when nothing is left to be pulled from it. -/
def sequence? (s : Session α) (id : Nat) : Option (OpenSequence α) := s.sequences.lookup id

def put (s : Session α) (id : Nat) (q : OpenSequence α) : Session α :=
  { s with sequences := (id, q) :: s.sequences.filter (·.1 != id) }

def refuse (s : Session α) : Effect α := ⟨.unknown, [], s⟩

def startOn (s : Session α) (id p : Nat) (t : Text) (answer : Answer α) : Effect α :=
  match s.parser? p with
  | none => s.refuse
  | some parser =>
    let opened := parser t
    ⟨answer, opened.calls, s.put id ⟨t, some opened.alternatives⟩⟩

/-- Pull the next alternative of a sequence. After its last one the sequence stays open. -/
def pullNext (s : Session α) (id : Nat) (q : OpenSequence α) : Alternatives α → Effect α
  | .exhausted calls => ⟨.pulled none, calls, s.put id ⟨q.rest, some fun _ => .exhausted []⟩⟩
  | .cutOff calls => ⟨.pulled none, calls, s.put id ⟨q.rest, some fun _ => .exhausted []⟩⟩
  | .next calls a tail => ⟨.pulled (some a), calls, s.put id ⟨a.rest, some tail⟩⟩

def drain (n : Nat) (earlier : List Call) : Alternatives α → Nat × List Call
  | .exhausted calls => (n, earlier ++ calls)
  | .cutOff calls => (n, earlier ++ calls)
  | .next calls _ tail => drain (n + 1) (earlier ++ calls) (tail ())

/-- Carries out a step. A step that names a sequence needs one of that number, from which something
can still be pulled if it is to be pulled or counted. -/
def perform (s : Session α) : Step → Effect α
  | .start id p => s.startOn id p s.input .started
  | .startOnRest id p earlier =>
    match s.sequence? earlier with
    | none => s.refuse
    | some q => s.startOn id p q.rest (.startedOnRest q.rest.byteLength)
  | .next id =>
    match s.sequence? id with
    | some ⟨rest, some pending⟩ => s.pullNext id ⟨rest, some pending⟩ (pending ())
    | _ => s.refuse
  | .count id =>
    match s.sequence? id with
    | some ⟨rest, some pending⟩ =>
      let (n, calls) := drain 0 [] (pending ())
      ⟨.counted n, calls, s.put id ⟨rest, none⟩⟩
    | _ => s.refuse
  | .drop id =>
    match s.sequence? id with
    | some q => ⟨.dropped, [], s.put id ⟨q.rest, none⟩⟩
    | none => s.refuse
  | .forget p => ⟨.forgotten, [], { s with parsers := s.parsers.set p none }⟩
  | .run p o =>
    match s.parser? p with
    | none => s.refuse
    | some parser =>
      let report := parser.run o s.input
      ⟨.ran report.result, report.calls, s⟩

end Session

end Backtrack
