import Predictive.Command.Run

/-! The command line program. -/
open Predictive

def fileContent (path : String) : IO (Except FileFault ByteArray) := do
  try
    return .ok (← IO.FS.readBinFile path)
  catch
    | .noFileOrDirectory .. => return .error .missing
    | fault => return .error (.unreadable fault.toString)

def randomSeed : IO UInt64 := do
  let bytes ← IO.getRandomBytes 8
  return bytes.toList.foldl (fun n b => n * 256 + b.toUInt64) 0

def main (args : List String) : IO UInt32 := do
  match Command.ofWords? args with
  | none =>
    IO.eprintln "usage: predictive (table | parse SENTENCE | generate | derive NUMBERS)"
    return 2
  | some command =>
    let file ← match command.file? with
      | some path => fileContent path
      | none => pure (.error .missing)
    let report := command.run file (← randomSeed)
    IO.print report.output
    IO.eprint report.errors
    return report.exitCode.toUInt32
