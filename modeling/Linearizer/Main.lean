import Linearizer.Dump.Run

/-!
# The program

Reads the routine text and the environment, runs the command and prints what it says.
-/

namespace Linearizer
namespace Dump

/-- Whether a code of the system has the number `n`; some of its calls give the code negated. -/
def hasNumber (code n : UInt32) : Bool := code == n || code + n == 0

/-- Why a file could not be read. -/
def readFailure : IO.Error → ReadError
  | .noFileOrDirectory _ _ _ => .missing
  | .permissionDenied _ _ _ => .denied
  | .inappropriateType _ code _ => if hasNumber code 20 then .notDirectory else .directory
  | e@(.invalidArgument _ code _) => if hasNumber code 36 then .tooLong else .other (toString e)
  | e => .other (toString e)

/-- Everything that a stream holds. -/
partial def readAll (stream : IO.FS.Stream) (read : ByteArray) : IO ByteArray := do
  let chunk ← stream.read 65536
  if chunk.isEmpty then return read
  readAll stream (read ++ chunk)

/-- The routine text, or the reason why it cannot be read. -/
def readText (file : Option String) : IO (Except ReadError String) := do
  try
    let bytes ← match file with
      | some path => IO.FS.readBinFile path
      | none => readAll (← IO.getStdin) .empty
    match String.fromUTF8? bytes with
    | some text => return .ok text
    | none => return .error .notText
  catch e => return .error (readFailure e)

/-- The settings of the environment. -/
def readEnvironment : IO Environment := do
  let names := ["DYNCG_NO_JUMP_TABLES", "DYNCG_JUMP_TABLE_MIN_CASES", "DYNCG_WORKERS"]
  let settings ← names.mapM fun name => return (name, ← IO.getEnv name)
  return fun name => (settings.lookup name).join

end Dump
end Linearizer

open Linearizer in
/-- Runs the command. -/
def main (args : List String) : IO UInt32 := do
  match Dump.Arguments.ofList? args with
  | none =>
    IO.eprintln "usage: linearizer [options] [file]"
    return Dump.usageCode.toUInt32
  | some a =>
    let outcome := Dump.run a (← Dump.readEnvironment) (← Dump.readText a.file)
    IO.print outcome.output
    if let some problem := outcome.problem then IO.eprintln problem.logged
    return outcome.code.toUInt32
