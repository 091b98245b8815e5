import Disasm86.Address
import Disasm86.Operation
import Disasm86.Register

/-!
# Decoded instructions

An instruction is its operation, the prefixes in front of it, its operands and the
bytes that encode it. The bytes are kept because the length of an instruction is
their number and because an operand remembers where in them its value stands:
relocation needs the place, not the value.

Prefixes come in four groups, and an encoding has at most one of each, so a set
of prefixes is one optional choice per group rather than a set of bits.

## Main definitions

* `Field`: The bytes of an encoding that hold an operand's value.
* `MemoryOperand`: A place in memory, by registers and displacement.
* `Operand`: What an operation works on.
* `Prefixes`: The prefixes in front of an instruction.
* `Instruction`: A decoded instruction.
* `Instruction.ofEncoding`: The instruction of an encoding.
* `Instruction.branchTarget?`: Where a relative branch goes.
-/

namespace Disasm86

/-- A run of bytes in an encoding, counted from its first byte. -/
structure Field where
  start : Nat
  length : Nat
deriving DecidableEq, Repr

/-- The position just past a field. -/
def Field.stop (f : Field) : Nat := f.start + f.length

/-- A memory operand `segment:[base+index*scale+displacement]`. -/
structure MemoryOperand where
  /-- The width of the access, unless the operation fixes it. -/
  size : Option OperandSize := none
  /-- The segment register that a prefix or the decoding context asks for. -/
  segmentOverride : Option Register := none
  base : Option Register := none
  index : Option Register := none
  scale : Nat := 1
  displacement : Int32 := 0
  /-- Where the displacement stands, if it is encoded at all. -/
  field : Option Field := none
deriving DecidableEq, Repr

namespace MemoryOperand

/-- The segment register an access goes through. Without an override it is the
    stack segment for addresses based on `bp` and the data segment for others. -/
def segment (m : MemoryOperand) : Register :=
  match m.segmentOverride with
  | some r => r
  | none => if m.base = some .bp then .segment .ss else .segment .ds

/-- An operand without registers names its offset directly. -/
def isDirect (m : MemoryOperand) : Bool :=
  m.base.isNone && m.index.isNone

end MemoryOperand

/-- What an operation works on. -/
inductive Operand where
  /-- A constant, sign-extended to 32 bits. Constants that the opcode implies have
      no field. -/
  | immediate (value : Int32) (size : OperandSize) (field : Option Field)
  | register (register : Register)
  | memory (place : MemoryOperand)
  /-- A branch target as a distance from the end of the instruction. -/
  | relative (displacement : Int32) (size : OperandSize) (field : Field)
  /-- A branch target in full. -/
  | pointer (segment : UInt16) (offset : UInt32) (field : Field)
deriving DecidableEq, Repr

namespace Operand

/-- The bytes that a relocation of this operand would patch. -/
def field? : Operand → Option Field
  | .immediate _ _ field => field
  | .register _ => none
  | .memory place => place.field
  | .relative _ _ field => some field
  | .pointer _ _ field => some field

/-- Whether the operand is a place in memory. -/
def isMemory : Operand → Bool
  | .memory _ => true
  | _ => false

end Operand

/-- The prefixes that lock the bus or repeat a string operation. -/
inductive LockOrRepeat where
  | lock
  | repeatNotEqual
  | repeatEqual
deriving DecidableEq, Repr

/-- One legacy prefix. -/
inductive LegacyPrefix where
  | lockOrRepeat (choice : LockOrRepeat)
  | segment (register : SegmentRegister)
  | operandSize
  | addressSize
deriving DecidableEq, Repr

/-- The prefixes of an instruction, at most one of each group. -/
structure Prefixes where
  lockOrRepeat : Option LockOrRepeat := none
  segment : Option SegmentRegister := none
  operandSize : Bool := false
  addressSize : Bool := false
deriving DecidableEq, Repr, Inhabited

namespace Prefixes

/-- No prefixes. -/
def none : Prefixes := {}

/-- Adds a prefix, unless its group already has one. -/
def add? (p : Prefixes) : LegacyPrefix → Option Prefixes
  | .lockOrRepeat choice =>
    if p.lockOrRepeat.isSome then .none else some { p with lockOrRepeat := some choice }
  | .segment r => if p.segment.isSome then .none else some { p with segment := some r }
  | .operandSize => if p.operandSize then .none else some { p with operandSize := true }
  | .addressSize => if p.addressSize then .none else some { p with addressSize := true }

end Prefixes

/-- A decoded instruction. -/
structure Instruction where
  operation : Operation
  prefixes : Prefixes
  operands : List Operand
  /-- The encoding, from the first prefix to the last operand byte. -/
  bytes : List UInt8
deriving DecidableEq, Repr

namespace Instruction

/-- How many bytes of its encoding an instruction has room for. -/
def capacity : Nat := 16

/-- The instruction of an encoding. Bytes that it has no room for are dropped. -/
def ofEncoding (operation : Operation) (prefixes : Prefixes) (operands : List Operand)
    (encoding : List UInt8) : Instruction where
  operation := operation
  prefixes := prefixes
  operands := operands
  bytes := encoding.take capacity

/-- The number of bytes in the encoding. -/
def length (i : Instruction) : Nat := i.bytes.length

/-- The transfer of control that the instruction performs, if any. -/
def transfer? (i : Instruction) : Option Transfer := i.operation.transfer?

/-- Whether the instruction ends a basic block. -/
def endsBlock (i : Instruction) : Bool := i.transfer?.isSome

/-- Whether execution can go on behind the instruction. -/
def fallsThrough (i : Instruction) : Bool := i.transfer?.all (·.fallsThrough)

/-- The address just past the instruction. -/
def next (i : Instruction) (location : Address) : Address := location.advance i.length

/-- The target of the first relative operand, for an instruction at `location`. The
    target is in the same segment, but its offset may lie outside of it. -/
def branchTarget? (i : Instruction) (location : Address) : Option Address :=
  i.operands.findSome? fun
    | .relative displacement _ _ => some ((i.next location).offsetBy displacement)
    | _ => none

/-- The fields of the operands that have one, in operand order. -/
def fields (i : Instruction) : List Field := i.operands.filterMap Operand.field?

end Instruction

end Disasm86
