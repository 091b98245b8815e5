import Disasm86.CommandLine

/-!
# The program

Runs the command line on the files of the disk.

## Main definitions

* `diskFiles`: Reading and writing files on the disk.
-/

namespace Disasm86

/-- The reason for a failed file operation, in the words of the system. -/
def systemReason : IO.Error → String
  | .noFileOrDirectory .. => "No such file or directory (os error 2)"
  | .permissionDenied .. => "Permission denied (os error 13)"
  | .inappropriateType .. => "Is a directory (os error 21)"
  | e => toString e

/-- An operation, with its failure as a value. -/
def attempt {α : Type} (action : IO α) : IO (Except String α) := do
  try
    return .ok (← action)
  catch e =>
    return .error (systemReason e)

/-- The files of the disk. -/
def diskFiles : Files IO where
  read path := attempt do return (← IO.FS.readBinFile path).data
  write path text := attempt (IO.FS.writeFile path text)

end Disasm86

/-- Runs the program and prints what it leaves behind. -/
def main (arguments : List String) : IO UInt32 := do
  let outcome ← Disasm86.CommandLine.run Disasm86.diskFiles arguments
  IO.print outcome.output
  match outcome.error with
  | some report => IO.eprintln report
  | none => pure ()
  return UInt32.ofNat outcome.code
