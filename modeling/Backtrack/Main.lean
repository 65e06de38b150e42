import Backtrack.CommandLine

/-!
The program: reads the files that the arguments name and the standard input, and prints the
outcome of the command line.
-/

namespace Backtrack.CommandLine

def contents (path : Option Text) : IO (Option (List UInt8)) := do
  match path with
  | none => return none
  | some path =>
    try
      return some (← IO.FS.readBinFile (String.ofList path)).toList
    catch _ => return none

def perform (args : List Text) : IO UInt32 := do
  match Request.ofArgs? args with
  | none =>
    IO.eprintln "error: the arguments cannot be understood"
    return 2
  | some request =>
    let config ← contents request.config
    let input ← contents request.input
    let stdin ←
      if request.input.isNone then (← IO.getStdin).readBinToEnd else pure ByteArray.empty
    let file := fun path => if some path = request.config then config else input
    let outcome := request.run file stdin.toList
    IO.print (String.ofList outcome.output)
    if let some e := outcome.failure then
      IO.eprintln ("Error: " ++ String.ofList e.message)
    return outcome.status.toUInt32

end Backtrack.CommandLine

def main (args : List String) : IO UInt32 :=
  Backtrack.CommandLine.perform (args.map String.toList)
