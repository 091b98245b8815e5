import Disasm86.Operation
import Disasm86.Address

/-!
# References

Why one place of a program leads to another. A reference is made by an instruction
that transfers control, by execution running on behind an instruction, by a table of
jump targets, or by a user who names an entry point.

Kinds are ranked. References of lower rank are followed first, so that everything
that is certain about a program is settled before the contents of a jump table are
guessed at.

## Main definitions

* `ReferenceKind`: Why a place leads to another.
* `ReferenceKind.rank`: The order in which references are followed.
* `Reference`: A kind, a source, a target, and the slot of a table.
-/

namespace Disasm86

/-- Why one place leads to another. -/
inductive ReferenceKind where
  /-- A user named the target as an entry point. -/
  | entry
  /-- The instruction at the source transfers control. -/
  | transfer (transfer : Transfer)
  /-- Execution runs on behind the instruction at the source. -/
  | fallThrough
  /-- The target stands in a table that the jump at the source reads. -/
  | indexedJump
deriving DecidableEq, Repr, Inhabited

namespace ReferenceKind

/-- The name of a kind in a listing. -/
def name : ReferenceKind → String
  | .entry => "UserSpecified"
  | .transfer t => t.name
  | .fallThrough => "FallThrough"
  | .indexedJump => "NearIndexedJump"

/-- References of lower rank are followed first. -/
def rank : ReferenceKind → Nat
  | .entry => 0
  | .transfer .nearJump => 1
  | .transfer .farJump => 2
  | .transfer .nearCall => 3
  | .transfer .farCall => 4
  | .transfer .conditionalJump => 5
  | .fallThrough => 6
  | .indexedJump => 7
  | .transfer .interrupt => 8
  | .transfer .interruptReturn => 9
  | .transfer .nearReturn => 10
  | .transfer .farReturn => 11
  | .transfer .halt => 12

/-- Whether the reference is a call. -/
def isCall : ReferenceKind → Bool
  | .transfer t => t.isCall
  | _ => false

/-- Every kind, by rank. -/
def all : List ReferenceKind :=
  [.entry, .transfer .nearJump, .transfer .farJump, .transfer .nearCall, .transfer .farCall,
   .transfer .conditionalJump, .fallThrough, .indexedJump, .transfer .interrupt,
   .transfer .interruptReturn, .transfer .nearReturn, .transfer .farReturn, .transfer .halt]

end ReferenceKind

/-- A directed reference. Either end may be unknown, but not both. -/
structure Reference where
  kind : ReferenceKind
  source : Address
  target : Address
  /-- The table slot that holds the target, for an indexed jump. -/
  slot : Address := .nowhere
deriving DecidableEq, Repr, Inhabited

namespace Reference

/-- A slot of a jump table whose target has not been read yet. -/
def probe (source slot : Address) : Reference :=
  ⟨.indexedJump, source, .nowhere, slot⟩

/-- Whether one of the ends is known. -/
def isAnchored (r : Reference) : Bool := r.source.isSomewhere || r.target.isSomewhere

/-- Whether the reference stands for a slot that is still to be read. -/
def isProbe (r : Reference) : Bool :=
  r.kind = .indexedJump && !r.target.isSomewhere

end Reference

end Disasm86
