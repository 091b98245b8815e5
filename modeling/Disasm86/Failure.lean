import Disasm86.Fault
import Disasm86.Instruction.Printer

/-!
# Failures

Why there is no disassembly at all: the image could not be read, it is empty, the
analysis was refused, or it broke off at a sum that is too large. A failure has a cause of
its own where it comes from elsewhere, and a report tells both.

## Main definitions

* `Failure`: Why there is no disassembly.
* `Failure.message`: The wording of a failure.
* `Failure.causes`: A failure and what caused it, outermost first.
-/

namespace Disasm86

/-- Why there is no disassembly. -/
inductive Failure where
  /-- The analysis was refused. -/
  | analysis (cause : Fault)
  /-- The analysis broke off. -/
  | overflow (cause : Overflow)
  /-- The system could not read the image, for the reason it gives. -/
  | unreadable (cause : String)
  /-- The image has no bytes. -/
  | emptyFile (path : String)
deriving DecidableEq, Repr

namespace Failure

/-- The wording of each failure. -/
def message : Failure → String
  | .analysis cause => "Analysis error: " ++ cause.message
  | .overflow _ => "attempt to add with overflow"
  | .unreadable cause => "I/O error: " ++ cause
  | .emptyFile path => path ++ " is empty"

/-- The wording of a failure and of its cause, if it has one of its own. -/
def causes (f : Failure) : List String :=
  match f with
  | .analysis cause => [f.message, cause.message]
  | .unreadable cause => [f.message, cause]
  | .overflow _ | .emptyFile _ => [f.message]

end Failure

end Disasm86
