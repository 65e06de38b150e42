import Backtrack.Text.Basic

/-!
The answers of a parser: a lazy, ordered sequence of alternatives, the most preferred first.
Besides the alternatives a sequence records the calls of labelled parsers that each pull makes,
so that two sequences are equal only if they do the same work at the same time.
-/

namespace Backtrack

structure Call where
  label : String
  text : Text
  deriving DecidableEq

structure Alternative (α : Type) where
  value : α
  rest : Text
  deriving DecidableEq

namespace Alternative

def map {α β : Type} (f : α → β) (a : Alternative α) : Alternative β := ⟨f a.value, a.rest⟩

def consumed {α : Type} (a : Alternative α) (input : Text) : Nat :=
  input.byteLength - a.rest.byteLength

end Alternative

/-- What the next pull brings: an alternative and the sequence after it, or the end. Every
constructor holds the calls that this one pull makes. `cutOff` ends a sequence whose rules refer
to each other more deeply than the budget of the caller allows. -/
inductive Alternatives (α : Type) where
  | exhausted (calls : List Call)
  | cutOff (calls : List Call)
  | next (calls : List Call) (head : Alternative α) (tail : Unit → Alternatives α)

/-- A parser that has been started: the calls that starting it made, and its alternatives, of
which none has been worked out yet. -/
structure Opening (α : Type) where
  calls : List Call
  alternatives : Unit → Alternatives α

namespace Alternatives

variable {α β : Type}

/-- The same sequence, whose first pull makes the calls `earlier` before its own. -/
def after (earlier : List Call) : Alternatives α → Alternatives α
  | exhausted calls => exhausted (earlier ++ calls)
  | cutOff calls => cutOff (earlier ++ calls)
  | next calls a tail => next (earlier ++ calls) a tail

def map (f : α → β) : Alternatives α → Alternatives β
  | exhausted calls => exhausted calls
  | cutOff calls => cutOff calls
  | next calls a tail => next calls (a.map f) fun _ => map f (tail ())

def append (later : Unit → Opening α) : Alternatives α → Alternatives α
  | exhausted calls =>
    let opened := later ()
    (opened.alternatives ()).after (calls ++ opened.calls)
  | cutOff calls => cutOff calls
  | next calls a tail => next calls a fun _ => append later (tail ())

/-- The branches of all alternatives one after the other, after the calls `earlier`. A pull opens
branches until one of them yields an alternative. -/
def bindAfter (f : Alternative α → Opening β) (earlier : List Call) :
    Alternatives α → Alternatives β
  | exhausted calls => exhausted (earlier ++ calls)
  | cutOff calls => cutOff (earlier ++ calls)
  | next calls a tail =>
    let opened := f a
    let made := earlier ++ (calls ++ opened.calls)
    match opened.alternatives () with
    | exhausted calls => bindAfter f (made ++ calls) (tail ())
    | cutOff calls => cutOff (made ++ calls)
    | next calls b more =>
      next (made ++ calls) b fun _ =>
        append (fun _ => ⟨[], fun _ => bindAfter f [] (tail ())⟩) (more ())

def bind (f : Alternative α → Opening β) (s : Alternatives α) : Alternatives β :=
  bindAfter f [] s

def toList : Alternatives α → List (Alternative α)
  | exhausted _ => []
  | cutOff _ => []
  | next _ a tail => a :: toList (tail ())

def ends : Alternatives α → Bool
  | exhausted _ => true
  | cutOff _ => false
  | next _ _ tail => ends (tail ())

/-- All alternatives after `earlier` ones, which are given last first. -/
def collect (earlier : List (Alternative α)) : Alternatives α → List (Alternative α)
  | exhausted _ => earlier.reverse
  | cutOff _ => earlier.reverse
  | next _ a tail => collect (a :: earlier) (tail ())

structure Pulled (α : Type) where
  alternatives : List (Alternative α)
  calls : List Call
  finished : Bool

/-- Pull `k` times, or until the end. The sequence is worked out only as far as it is pulled. -/
def pull : Nat → (Unit → Alternatives α) → Pulled α
  | 0, _ => ⟨[], [], false⟩
  | k + 1, s =>
    match s () with
    | exhausted calls => ⟨[], calls, true⟩
    | cutOff calls => ⟨[], calls, false⟩
    | next calls a tail =>
      let later := pull k tail
      ⟨a :: later.alternatives, calls ++ later.calls, later.finished⟩

end Alternatives

namespace Opening

variable {α β : Type}

def empty : Opening α := ⟨[], fun _ => .exhausted []⟩

def single (value : α) (rest : Text) : Opening α :=
  ⟨[], fun _ => .next [] ⟨value, rest⟩ fun _ => .exhausted []⟩

def cut : Opening α := ⟨[], fun _ => .cutOff []⟩

def map (f : α → β) (o : Opening α) : Opening β :=
  ⟨o.calls, fun _ => (o.alternatives ()).map f⟩

def append (o : Opening α) (later : Unit → Opening α) : Opening α :=
  ⟨o.calls, fun _ => (o.alternatives ()).append later⟩

def bind (o : Opening α) (f : Alternative α → Opening β) : Opening β :=
  ⟨o.calls, fun _ => (o.alternatives ()).bind f⟩

/-- Pull `k` times, or until the end. The calls that opening made come first. -/
def pull (k : Nat) (o : Opening α) : Alternatives.Pulled α :=
  let pulled := Alternatives.pull k o.alternatives
  ⟨pulled.alternatives, o.calls ++ pulled.calls, pulled.finished⟩

end Opening

end Backtrack
