import Disasm86.Fault
import Disasm86.Operation

/-!
# Basic blocks

A run of instructions that is entered at its first and left at its last. A block
knows where it starts, how many bytes it covers and why it ends.

## Main definitions

* `BlockKind`: Why a block ends.
* `BlockKind.ofTransfer`: The kind of a block that ends in a transfer.
* `Block`: A start, a length and a kind.
* `Block.ofRange`: The block between two addresses.
* `Block.contains`: Whether a block covers an address.
-/

namespace Disasm86

/-- Why a block ends. -/
inductive BlockKind where
  /-- The next instruction starts another block. -/
  | fallThrough
  | jump
  | branch
  /-- A call or a software interrupt. -/
  | call
  | ret
  | halt
  /-- The analysis could not go on. -/
  | broken
deriving DecidableEq, Repr, Inhabited

namespace BlockKind

/-- The name of a kind in a listing. -/
def name : BlockKind → String
  | .fallThrough => "FallThrough"
  | .jump => "Jump"
  | .branch => "Branch"
  | .call => "Call"
  | .ret => "Return"
  | .halt => "Halt"
  | .broken => "Broken"

/-- The kind of a block whose last instruction transfers control. -/
def ofTransfer : Transfer → BlockKind
  | .conditionalJump => .branch
  | .nearJump | .farJump => .jump
  | .nearCall | .farCall | .interrupt => .call
  | .interruptReturn | .nearReturn | .farReturn => .ret
  | .halt => .halt

/-- Every kind. -/
def all : List BlockKind := [.fallThrough, .jump, .branch, .call, .ret, .halt, .broken]

end BlockKind

/-- A run of bytes in one segment, entered at its start. -/
structure Block where
  start : Address
  length : Int32
  kind : BlockKind
deriving DecidableEq, Repr, Inhabited

namespace Block

/-- The block that covers the bytes from `start` to just before `stop`. -/
def ofRange (start stop : Address) (kind : BlockKind) : Except Fault Block :=
  match stop.distanceFrom? start with
  | none => .error (.segmentMismatch start stop)
  | some length =>
    if 0 < length then .ok ⟨start, Int32.ofInt length, kind⟩ else .error (.emptyRange start stop)

/-- The address just past the block. -/
def stop (b : Block) : Address := b.start.offsetBy b.length

/-- The offset just past the block. -/
def stopOffset (b : Block) : Int := b.start.offset.toInt + b.length.toInt

/-- Whether the block covers an address. -/
def contains (b : Block) (a : Address) : Bool :=
  a.segment == b.start.segment && b.start.offset.toInt ≤ a.offset.toInt
    && a.offset.toInt < b.stopOffset

/-- `[SSSS:OOOO, EEEE) Kind` -/
def text (b : Block) : String :=
  "[" ++ b.start.text ++ ", " ++ Address.wordText b.stop.offset ++ ") " ++ b.kind.name

/-- The number of a block, as a listing shows it. -/
def idText (id : Nat) : String := "#" ++ toString id

end Block

end Disasm86
