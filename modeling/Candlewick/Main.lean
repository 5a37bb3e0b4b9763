import Candlewick.CommandLine.Run
import Candlewick.CommandLine.Usage

namespace Candlewick.CommandLine

/-- The fault that the machine reports. An error number can come with either sign. -/
def faultOf (error : IO.Error) : Files.Fault :=
  match error with
  | .noFileOrDirectory _ _ _ => .notFound
  | .inappropriateType _ number _ =>
    match number.toInt32.toInt.natAbs with
    | 20 => .notADirectory
    | 21 => .isADirectory
    | _ => .other (toString error)
  | _ => .other (toString error)

/-- Tries something, and takes an error as a fault. -/
def attempt {α : Type} (action : IO α) : IO (Except Files.Fault α) := do
  match ← action.toBaseIO with
  | .ok a => return .ok a
  | .error error => return .error (faultOf error)

/-- Reads a file of the machine. -/
def readFile (path : String) : IO (Except Files.Fault String) := do
  match ← attempt (IO.FS.readBinFile path) with
  | .error fault => return .error fault
  | .ok bytes =>
    match String.fromUTF8? bytes with
    | some text => return .ok text
    | none => return .error .notUtf8

/-- Lists a directory of the machine. -/
def listDirectory (path : String) : IO (Except Files.Fault (List String)) :=
  attempt do
    let directory ← IO.FS.realPath path
    return (← directory.readDir).toList.map (·.fileName)

/-- Access to the files of the machine. -/
def machine : Files.Access IO where
  read := readFile
  list := listDirectory
  write path text := attempt (IO.FS.writeFile path text)

end Candlewick.CommandLine

open Candlewick CommandLine

/-- Runs the command that the arguments ask for. -/
def main (arguments : List String) : IO UInt32 := do
  match read arguments with
  | .error .helpWanted =>
    IO.println usage
    return 0
  | .error refusal =>
    IO.eprintln s!"error: {refusal.message}\n\n{usage}"
    return refusal.exitCode.toUInt32
  | .ok command =>
    let outcome ← command.run machine
    IO.print outcome.transcript.printed
    IO.eprint outcome.transcript.messages
    for event in outcome.transcript.log do
      IO.eprintln event.display
    return outcome.exitCode.toUInt32
