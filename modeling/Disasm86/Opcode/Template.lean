import Disasm86.Operation
import Disasm86.Register

/-!
# Opcode templates

What an opcode byte promises about the bytes behind it. A form is an operation
with one template for each operand, and a template says where the operand comes
from: the addressing byte that follows the opcode, the bytes behind that, or the
opcode itself.

An addressing byte holds three numbers: a mode, a register number and a second
register number that means memory in all modes but the last. Some opcodes need the
register number to say which operation they are; those have a group of eight forms
instead of one.

## Main definitions

* `Width`: A width that is fixed, or the one in force.
* `Template`: Where an operand comes from.
* `Form`: An operation and the templates of its operands.
* `Slot`: What an opcode stands for: nothing, a form, or a group.
* `Entry`: What a byte at the start of an instruction stands for.
-/

namespace Disasm86

/-- The width of a template: fixed, or the operand size in force. -/
inductive Width where
  | byte
  | word
  | operand
deriving DecidableEq, Repr

/-- The size that a width comes to under an operand size. -/
def Width.size (w : Width) (inForce : OperandSize) : OperandSize :=
  match w with
  | .byte => .byte
  | .word => .word
  | .operand => inForce

/-- Where an operand comes from. -/
inductive Template where
  /-- The register or memory place of the addressing byte. -/
  | place (width : Width)
  /-- The register number of the addressing byte. -/
  | register (width : Width)
  /-- The register number of the addressing byte, as a segment register. -/
  | segment
  /-- A memory place whose size the operation fixes; a register is refused. -/
  | memory
  /-- A memory place that holds a far address; a register is refused. -/
  | farMemory
  /-- A constant of the template's width. -/
  | immediate (width : Width)
  /-- A constant of one byte for an operand of the size in force. -/
  | shortImmediate
  /-- A distance from the end of the instruction. -/
  | relative (width : Width)
  /-- A segment and an offset. -/
  | farPointer
  /-- The bare offset of a memory place. -/
  | offset (width : Width)
  /-- Always the same register. -/
  | fixed (register : Register)
  /-- A word register, widened to the operand size in force. -/
  | fixedWide (register : Register)
  /-- Always the same constant. -/
  | constant (value : Int32)
deriving DecidableEq, Repr

/-- Whether a template looks at the addressing byte. -/
def Template.needsAddressing : Template → Bool
  | .place _ | .register _ | .segment | .memory | .farMemory => true
  | _ => false

/-- An operation and where its operands come from. -/
structure Form where
  operation : Operation
  operands : List Template
deriving DecidableEq, Repr

/-- Whether an addressing byte follows the opcode of this form. -/
def Form.needsAddressing (f : Form) : Bool :=
  f.operands.any Template.needsAddressing

/-- What an opcode stands for. -/
inductive Slot where
  | undefined
  | form (form : Form)
  /-- The register number of the addressing byte picks the form. -/
  | group (members : Fin 8 → Option Form)

/-- What a byte at the start of an instruction stands for. -/
inductive Entry where
  | opcode (slot : Slot)
  | legacyPrefix
  /-- The byte that follows selects from the second map. -/
  | twoByte
  /-- The coprocessor interprets the addressing byte. -/
  | coprocessor

end Disasm86
