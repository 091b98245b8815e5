import Disasm86.Decode.Reader
import Disasm86.Opcode.Escape
import Disasm86.Opcode.Map

/-!
# Decoding one instruction

Bytes to instruction, in four steps: the prefixes, the opcode, the addressing byte
where the opcode calls for one, and the operands in the order of their templates.
Decoding depends on its context and its bytes alone.

Prefixes are not operations of their own; what they do is change the context that
the rest is decoded in. Two prefixes of one group contradict each other and are
refused, so a run of prefixes is short and its order does not matter.

Only 16-bit addresses are understood. Switching the address size is no error by
itself, but a memory operand under it is.

## Main definitions

* `DecodeContext`: Sizes in force and a segment override.
* `scanPrefixes`: The prefixes in front of an opcode.
* `DecodeContext.under`: The context that prefixes leave.
* `ModRM`: The three numbers of an addressing byte.
* `readOperand`: The operand of a template.
* `decode`: The instruction at the front of a window.
-/

namespace Disasm86

/-- What decoding takes for granted before it has seen a prefix. -/
structure DecodeContext where
  operandSize : OperandSize := .word
  addressSize : OperandSize := .word
  /-- The segment register of memory operands without a segment prefix. -/
  segmentOverride : Option Register := none
deriving DecidableEq, Repr, Inhabited

/-- The prefix that a byte is, if it is one. -/
def legacyPrefix? (b : UInt8) : Option LegacyPrefix :=
  match b.toNat with
  | 0xF0 => some (.lockOrRepeat .lock)
  | 0xF2 => some (.lockOrRepeat .repeatNotEqual)
  | 0xF3 => some (.lockOrRepeat .repeatEqual)
  | 0x26 => some (.segment .es)
  | 0x2E => some (.segment .cs)
  | 0x36 => some (.segment .ss)
  | 0x3E => some (.segment .ds)
  | 0x66 => some .operandSize
  | 0x67 => some .addressSize
  | _ => none

/-- Collects prefixes up to the first byte that is none, and leaves the cursor
    there. -/
def scanPrefixes (seen : Prefixes) (position : Nat) :
    List UInt8 → Except DecodeError (Prefixes × Cursor)
  | [] => .ok (seen, ⟨position, []⟩)
  | b :: bs =>
    match legacyPrefix? b with
    | none => .ok (seen, ⟨position, b :: bs⟩)
    | some p =>
      match seen.add? p with
      | none => .error (.conflictingPrefix b)
      | some seen => scanPrefixes seen (position + 1) bs

/-- The context behind a set of prefixes. -/
def DecodeContext.under (context : DecodeContext) (p : Prefixes) : DecodeContext where
  operandSize := if p.operandSize then context.operandSize.toggle else context.operandSize
  addressSize := if p.addressSize then context.addressSize.toggle else context.addressSize
  segmentOverride :=
    match p.segment with
    | some r => some (.segment r)
    | none => context.segmentOverride

/-- The three numbers of an addressing byte. -/
structure ModRM where
  mode : Fin 4
  reg : Fin 8
  rm : Fin 8
deriving DecidableEq, Repr, Inhabited

/-- Takes an addressing byte apart, the mode from its upper bits. -/
def ModRM.ofByte (b : UInt8) : ModRM where
  mode := ⟨b.toNat / 64 % 4, Nat.mod_lt _ (by decide)⟩
  reg := ⟨b.toNat / 8 % 8, Nat.mod_lt _ (by decide)⟩
  rm := ⟨b.toNat % 8, Nat.mod_lt _ (by decide)⟩

/-- The base and index registers that a memory operand uses. -/
def ModRM.registers (m : ModRM) : Option Register × Option Register :=
  match m.rm with
  | 0 => (some .bx, some .si)
  | 1 => (some .bx, some .di)
  | 2 => (some .bp, some .si)
  | 3 => (some .bp, some .di)
  | 4 => (some .si, none)
  | 5 => (some .di, none)
  | 6 => if m.mode = 0 then (none, none) else (some .bp, none)
  | 7 => (some .bx, none)

/-- The size of the displacement that a memory operand has, if it has one. -/
def ModRM.displacementSize? (m : ModRM) : Option OperandSize :=
  match m.mode with
  | 0 => if m.rm.val = 6 then some .word else none
  | 1 => some .byte
  | 2 => some .word
  | 3 => none

/-- A displacement of the given size, or zero without a field where there is none. -/
def readDisplacement : Option OperandSize → Reader (Int32 × Option Field)
  | none => pure (0, none)
  | some size => do
    let (value, field) ← Reader.signed size
    return (value, some field)

/-- The memory operand of an addressing byte. -/
def readMemory (context : DecodeContext) (m : ModRM) (size : Option OperandSize) :
    Reader Operand := do
  if context.addressSize ≠ .word then throw .unsupportedAddressSize
  let (displacement, field) ← readDisplacement m.displacementSize?
  return .memory {
    size := size
    segmentOverride := context.segmentOverride
    base := m.registers.1
    index := m.registers.2
    displacement := displacement
    field := field }

/-- The memory operand of a bare offset. -/
def readOffset (context : DecodeContext) (size : OperandSize) : Reader Operand := do
  if context.addressSize ≠ .word then throw .unsupportedAddressSize
  let (displacement, field) ← Reader.signed .word
  return .memory {
    size := some size
    segmentOverride := context.segmentOverride
    displacement := displacement
    field := some field }

/-- The register or memory place of an addressing byte. -/
def readPlace (context : DecodeContext) (m : ModRM) (size : OperandSize) : Reader Operand :=
  if m.mode = 3 then return .register (.general size m.rm) else readMemory context m (some size)

/-- A far address: an offset of two or four bytes, and a segment. -/
def readFarPointer (context : DecodeContext) : Reader Operand := do
  let offsetBytes := if context.operandSize = .dword then 4 else 2
  let (bs, field) ← Reader.field (offsetBytes + 2)
  return .pointer (UInt16.ofNat (littleEndian (bs.drop offsetBytes)))
    (UInt32.ofNat (littleEndian (bs.take offsetBytes))) field

/-- The operand of a template. `opcode` is the byte to report when the addressing
    byte selects an operand that the template does not take. -/
def readOperand (context : DecodeContext) (opcode : UInt8) (m : ModRM) : Template → Reader Operand
  | .place width => readPlace context m (width.size context.operandSize)
  | .register width => return .register (.general (width.size context.operandSize) m.reg)
  | .segment =>
    match SegmentRegister.ofNumber? m.reg with
    | some r => return .register (.segment r)
    | none => throw (.invalidOperand opcode)
  | .memory =>
    if m.mode = 3 then throw (.invalidOperand opcode) else readMemory context m none
  | .farMemory =>
    if m.mode = 3 then throw (.invalidOperand opcode) else readMemory context m (some .dword)
  | .immediate width => do
    let size := width.size context.operandSize
    let (value, field) ← Reader.signed size
    return .immediate value size (some field)
  | .shortImmediate => do
    let (value, field) ← Reader.signed .byte
    return .immediate value context.operandSize (some field)
  | .relative width => do
    let size := width.size context.operandSize
    let (displacement, field) ← Reader.signed size
    return .relative displacement size field
  | .farPointer => readFarPointer context
  | .offset width => readOffset context (width.size context.operandSize)
  | .fixed r => return .register r
  | .fixedWide r => return .register (r.widen context.operandSize)
  | .constant value => return .immediate value .byte none

/-- The operands of templates, from the first to the last. -/
def readOperands (context : DecodeContext) (opcode : UInt8) (m : ModRM) :
    List Template → Reader (List Operand)
  | [] => pure []
  | t :: ts => do
    let operand ← readOperand context opcode m t
    let operands ← readOperands context opcode m ts
    return operand :: operands

/-- The addressing byte. -/
def readModRM : Reader ModRM := do
  return .ofByte (← Reader.byte)

/-- The rest of an instruction whose last opcode byte is `last`. A form without
    templates for the addressing byte has none, and then none is looked at. -/
def readSlot (context : DecodeContext) (opcode last : UInt8) :
    Slot → Reader (Operation × List Operand)
  | .undefined => throw (.invalidOpcode last)
  | .form f => do
    let m ← if f.needsAddressing then readModRM else pure default
    return (f.operation, ← readOperands context opcode m f.operands)
  | .group members => do
    let m ← readModRM
    match members m.reg with
    | none => throw (.invalidOpcode last)
    | some f => return (f.operation, ← readOperands context opcode m f.operands)

/-- The operands that a coprocessor operation names on its stack. -/
def StackOperands.operands (rm : Fin 8) : StackOperands → List Operand
  | .none => []
  | .topAndPlace => [.register .top, .register (.stack rm)]
  | .placeAndTop => [.register (.stack rm), .register .top]
  | .place => [.register (.stack rm)]
  | .ax => [.register .ax]

/-- The rest of a coprocessor instruction behind its escape byte. -/
def readEscape (context : DecodeContext) (escape : UInt8) : Reader (Operation × List Operand) := do
  let number := Escape.number escape
  let m ← readModRM
  if m.mode.val = 3 then
    match Escape.stackForm? number m.reg m.rm with
    | none => throw (.invalidOpcode escape)
    | some (operation, operands) => return (.coprocessor operation, operands.operands m.rm)
  else
    match Escape.memoryForm? number m.reg with
    | none => throw (.invalidOpcode escape)
    | some (operation, size) => return (.coprocessor operation, [← readMemory context m size])

/-- The opcode and the operands behind the prefixes. -/
def readOperation (context : DecodeContext) : Reader (Operation × List Operand) := do
  let opcode ← Reader.byte
  match Opcode.primary opcode with
  | .legacyPrefix => throw (.invalidOpcode opcode)
  | .twoByte => do
    let second ← Reader.byte
    readSlot context opcode second (Opcode.secondary second)
  | .coprocessor => readEscape context opcode
  | .opcode slot => readSlot context opcode opcode slot

/-- The instruction at the front of a window. -/
def decode (context : DecodeContext) (code : List UInt8) : Except DecodeError Instruction := do
  let (prefixes, cursor) ← scanPrefixes .none 0 code
  let ((operation, operands), cursor) ← readOperation (context.under prefixes) cursor
  return .ofEncoding operation prefixes operands (code.take cursor.position)

end Disasm86
