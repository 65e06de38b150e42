import Backtrack.Error
import Backtrack.Kind
import Backtrack.Options.Reader
import Backtrack.Text.Lines

/-!
The command line: a ready-made grammar is applied to every line of a text. What the arguments ask
for is worked out from the contents of files and of the standard input, and the result is what to
print and the exit status.
-/

namespace Backtrack.CommandLine

structure Request where
  kind : Kind
  input : Option Text
  config : Option Text
  partially : Bool
  all : Bool
  verbose : Bool
  deriving DecidableEq

inductive Switch where
  | grammar
  | input
  | config
  | partially
  | all
  | verbose
  deriving DecidableEq

namespace Switch

def takesValue : Switch → Bool
  | grammar => true
  | input => true
  | config => true
  | _ => false

def ofShort? : Char → Option Switch
  | 'g' => some grammar
  | 'i' => some input
  | 'c' => some config
  | 'p' => some partially
  | 'a' => some all
  | 'v' => some verbose
  | _ => none

def ofLong? (name : Text) : Option Switch :=
  if name = "grammar".toList then some grammar
  else if name = "input".toList then some input
  else if name = "config".toList then some config
  else if name = "partial".toList then some partially
  else if name = "all".toList then some all
  else if name = "verbose".toList then some verbose
  else none

end Switch

abbrev Given := Switch × Option Text

def isValue : Text → Bool
  | '-' :: _ :: _ => false
  | _ => true

/-- A switch that is given without its value. If it takes one, the next argument has to be it. -/
def bare (sw : Switch) : List Given × Option Switch :=
  if sw.takesValue then ([], some sw) else ([(sw, none)], none)

def readLong (arg : Text) : Option (List Given × Option Switch) :=
  match Switch.ofLong? (arg.takeWhile (· != '=')), arg.dropWhile (· != '=') with
  | some sw, [] => some (bare sw)
  | some sw, _ :: value => if sw.takesValue then some ([(sw, some value)], none) else none
  | none, _ => none

/-- The switches of an argument of short names. The first that takes a value takes the rest of the
argument or else the next argument. -/
def readShorts : Text → Option (List Given × Option Switch)
  | [] => some ([], none)
  | c :: rest => do
    let sw ← Switch.ofShort? c
    if sw.takesValue then
      match rest with
      | [] => some (bare sw)
      | '=' :: value => some ([(sw, some value)], none)
      | value => some ([(sw, some value)], none)
    else
      let (more, pending) ← readShorts rest
      return ((sw, none) :: more, pending)

/-- The switches of all arguments, when the switch `pending` still needs its value. There are no
other arguments; two dashes may end them. -/
def readArgs (pending : Option Switch) : List Text → Option (List Given)
  | [] => if pending.isNone then some [] else none
  | arg :: args =>
    match pending with
    | some sw => if isValue arg then (readArgs none args).map ((sw, some arg) :: ·) else none
    | none =>
      match arg with
      | ['-', '-'] => if args.isEmpty then some [] else none
      | '-' :: '-' :: long => do
        let (given, pending) ← readLong long
        return given ++ (← readArgs pending args)
      | '-' :: c :: shorts => do
        let (given, pending) ← readShorts (c :: shorts)
        return given ++ (← readArgs pending args)
      | _ => none

def value? (given : List Given) (sw : Switch) : Option Text := (given.lookup sw).join

/-- What the arguments ask for, `none` if they cannot be understood: a switch is unknown or given
twice, the grammar is missing or unknown, or a path is empty. -/
def Request.ofArgs? (args : List Text) : Option Request := do
  let given ← readArgs none args
  guard (given.map Prod.fst).Nodup
  let kind ← Kind.ofName? (← value? given .grammar)
  guard (value? given .input != some [] && value? given .config != some [])
  let has (sw : Switch) : Bool := (given.lookup sw).isSome
  return ⟨kind, value? given .input, value? given .config, has .partially, has .all, has .verbose⟩

structure Outcome where
  status : Nat
  output : Text
  failure : Option Error

def printed (fields : List (String × Json)) : Text :=
  (Json.sorted (fields.map fun (k, v) => (k.toList, v))).toText ++ ['\n']

structure LineAnswer where
  number : Nat
  result : Option (Except ParseError Json)

namespace LineAnswer

def toText (a : LineAnswer) : Text :=
  match a.result with
  | some (.ok v) => printed [("line", .integer a.number), ("value", v)]
  | some (.error e) => printed [("line", .integer a.number), ("error", .string e.message)]
  | none => []

def isAccepted (a : LineAnswer) : Bool :=
  match a.result with
  | some (.ok _) => true
  | _ => false

end LineAnswer

def answers (k : Kind) (o : Options) (text : Text) : List LineAnswer :=
  text.numberedLines.map fun (n, line) => ⟨n, (k.parser.run o line).result⟩

/-- Prints the answers to all lines. The status tells whether every line was accepted. -/
def answerLines (k : Kind) (o : Options) (text : Text) : Outcome :=
  let as := answers k o text
  ⟨if as.all LineAnswer.isAccepted then 0 else 1, as.flatMap LineAnswer.toText, none⟩

def alternativeText (number : Nat) (a : Alternative Json) : Text :=
  printed [("line", .integer number), ("value", a.value), ("rest", .string a.rest)]

/-- Prints all alternatives of the first line that is not blank. -/
def enumerateFirst (k : Kind) (text : Text) : Outcome :=
  match text.numberedLines with
  | [] => ⟨1, [], some (.internal "no input line to enumerate".toList)⟩
  | (n, line) :: _ =>
    ⟨0, (((k.parser line).alternatives ()).collect []).flatMap (alternativeText n), none⟩

def Request.options (r : Request) (file : Text → Option (List UInt8)) : Except Error Options :=
  let loaded : Except Error Options :=
    match r.config with
    | none => .ok {}
    | some path =>
      match file path with
      | none => .error .unreadable
      | some bytes => (Options.ofBytes bytes).mapError .options
  loaded.map fun o => if r.partially then { o with requireComplete := false } else o

def Request.text (r : Request) (file : Text → Option (List UInt8)) (stdin : List UInt8) :
    Except Error Text :=
  let bytes := match r.input with
    | none => some stdin
    | some path => file path
  match bytes.bind Utf8.text? with
  | none => .error .unreadable
  | some text => .ok text

/-- Carries out a request, reading the options before the text. -/
def Request.run (r : Request) (file : Text → Option (List UInt8)) (stdin : List UInt8) : Outcome :=
  let prepared := do
    let o ← r.options file
    let text ← r.text file stdin
    return (o, text)
  match prepared with
  | .error e => ⟨1, [], some e⟩
  | .ok (o, text) => if r.all then enumerateFirst r.kind text else answerLines r.kind o text

/-- A run of the program on its arguments, with the contents of files and the standard input.
Arguments that cannot be understood give status 2 and print nothing here. -/
def run (args : List Text) (file : Text → Option (List UInt8)) (stdin : List UInt8) : Outcome :=
  match Request.ofArgs? args with
  | none => ⟨2, [], none⟩
  | some r => r.run file stdin

end Backtrack.CommandLine
