import Disasm86.Instruction
import Std.Data.TreeMap

/-!
# The index of decoded instructions

Every instruction that the analysis has decoded, by the address where it starts.

## Main definitions

* `CodeIndex`: Instructions by address.
* `CodeIndex.inRange`: The instructions that start between two addresses.
* `CodeIndex.lastBefore?`: The last instruction that starts before an address.
-/

namespace Disasm86

/-- Decoded instructions by the address of their first byte. -/
structure CodeIndex where
  instructions : Std.TreeMap Address Instruction := ∅

namespace CodeIndex

/-- No instruction is decoded. -/
def empty : CodeIndex := {}

/-- Puts an instruction at an address, in place of the one that is there. -/
def insert (x : CodeIndex) (a : Address) (i : Instruction) : CodeIndex :=
  ⟨x.instructions.insert a i⟩

/-- The instruction that starts at an address. -/
def get? (x : CodeIndex) (a : Address) : Option Instruction := x.instructions[a]?

/-- The number of instructions. -/
def size (x : CodeIndex) : Nat := x.instructions.size

/-- All instructions, by ascending address. -/
def toList (x : CodeIndex) : List (Address × Instruction) := x.instructions.toList

/-- The instructions that start at or after `start` and before `stop`, by ascending
    address. -/
def inRange (x : CodeIndex) (start stop : Address) : List (Address × Instruction) :=
  x.instructions[start...stop].toList

/-- The last instruction that starts before an address, in the segment of the
    address. -/
def lastBefore? (x : CodeIndex) (a : Address) : Option (Address × Instruction) :=
  (x.instructions.getEntryLT? a).filter fun (b, _) => b.segment = a.segment

end CodeIndex

end Disasm86
