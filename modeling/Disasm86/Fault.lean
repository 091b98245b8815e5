import Disasm86.Address

/-!
# Faults of a caller

The ways an operation on the stores of an analysis can be refused. A fault says that
the caller asked for something that cannot be done. What is wrong with the program
under analysis is not a fault: it is recorded as a diagnostic, and the analysis goes
on.

## Main definitions

* `Fault`: Why an operation was refused.
* `Fault.message`: The wording of a fault.
-/

namespace Disasm86

/-- Why an operation was refused. -/
inductive Fault where
  /-- A range whose ends lie in two segments. -/
  | segmentMismatch (start stop : Address)
  /-- A range without bytes. -/
  | emptyRange (start stop : Address)
  /-- A byte that already has a kind. -/
  | alreadyTyped (location : Address)
  /-- A block that overlaps the one that starts at the location. -/
  | blockOverlap (location : Address)
  /-- A cut that does not fall inside a block. -/
  | splitOutsideBlock (location : Address)
  /-- A reference whose two ends are both unknown. -/
  | unanchoredReference
  /-- An entry point that the image does not have. -/
  | outsideImage (location : Address)
  /-- The analysis was asked to stop. -/
  | cancelled
deriving DecidableEq, Repr

/-- The wording of each fault. -/
def Fault.message : Fault → String
  | .segmentMismatch start stop =>
    "Range " ++ start.text ++ " .. " ++ stop.text ++ " spans two segments"
  | .emptyRange start stop => "Range " ++ start.text ++ " .. " ++ stop.text ++ " is empty"
  | .alreadyTyped a => "Byte at " ++ a.text ++ " is already classified"
  | .blockOverlap a => "Block overlaps the block at " ++ a.text
  | .splitOutsideBlock a => "No block to split at " ++ a.text
  | .unanchoredReference => "Cross-reference has neither a source nor a target"
  | .outsideImage a => "Address " ++ a.text ++ " is outside the image"
  | .cancelled => "Analysis was cancelled"

end Disasm86
