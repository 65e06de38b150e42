import Backtrack.Alternatives.Basic

/-!
Parsers and the combinators that join them. A parser maps a text to an ordered sequence of
alternatives, each with the text it leaves over; failure is the empty sequence. Sequencing runs
the second parser once per alternative of the first, so a later failure falls back on the next
alternative of an earlier stage.
-/

namespace Backtrack

/-- A parser starts on a text and offers its alternatives one by one. -/
def Parser (α : Type) := Text → Opening α

namespace Parser

variable {α β : Type}

def any : Parser Char
  | [] => .empty
  | c :: rest => .single c rest

def satisfy (accepts : Char → Bool) : Parser Char
  | [] => .empty
  | c :: rest => if accepts c then .single c rest else .empty

def literal (s : Text) : Parser Text := fun t =>
  match s.isPrefixOf? t with
  | some rest => .single s rest
  | none => .empty

def succeed (value : α) : Parser α := fun t => .single value t

def fail : Parser α := fun _ => .empty

/-- Nothing, provided that nothing is left. -/
def endOfInput : Parser Unit
  | [] => .single () []
  | _ :: _ => .empty

def cutOff : Parser α := fun _ => .cut

def bind (p : Parser α) (f : α → Parser β) : Parser β := fun t =>
  (p t).bind fun a => f a.value a.rest

def map (p : Parser α) (f : α → β) : Parser β := fun t => (p t).map f

def and (p : Parser α) (q : Parser β) : Parser (α × β) := fun t =>
  (p t).bind fun a => (q a.rest).map (a.value, ·)

/-- The alternatives of `p`, then those of `q` on the same text. `q` is not started before `p` is
exhausted. -/
def or (p q : Parser α) : Parser α := fun t => (p t).append fun _ => q t

/-- The alternatives of all parsers of the list on one text. Nothing is started before the first
pull. -/
def choice (ps : List (Parser α)) : Parser α := fun t => ⟨[], fun _ => go t ps⟩
where
  go (t : Text) : List (Parser α) → Alternatives α
    | [] => .exhausted []
    | p :: ps =>
      let opened := p t
      ((opened.alternatives ()).append fun _ => ⟨[], fun _ => go t ps⟩).after opened.calls

def sequence : List (Parser α) → Parser (List α)
  | [] => succeed []
  | p :: ps => fun t => (p t).bind fun a => (sequence ps a.rest).map (a.value :: ·)

def optional (p : Parser α) : Parser (Option α) := fun t =>
  ((p t).map some).append fun _ => .single none t

/-- The parser `p` under a label: starting it is recorded as a call. -/
def probe (label : String) (p : Parser α) : Parser α := fun t =>
  let opened := p t
  ⟨⟨label, t⟩ :: opened.calls, opened.alternatives⟩

end Parser

end Backtrack
