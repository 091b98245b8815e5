import Disasm86.Opcode.Template

/-!
# The opcode maps

Which form each opcode byte stands for. The first map has thirty-two rows of eight,
in the order of the bytes. Its upper quarter is regular: eight arithmetic operations
with six forms each, and two further slots at the end of every row. The second map,
behind the byte `0F`, has only the system operations of the 80286.

Groups are functions of the register number. A member of a group that is no
operation is `none`, and so is every member of a short group past its last.

## Main definitions

* `primaryMap`: The two hundred and fifty-six entries of the first map.
* `primary`: The entry of a first opcode byte.
* `secondary`: The slot of an opcode byte behind `0F`.
-/

namespace Disasm86

namespace Opcode

/-- A register or memory place of one byte. -/
def eb : Template := .place .byte
/-- A register or memory place of one word. -/
def ew : Template := .place .word
/-- A register or memory place of the operand size. -/
def ev : Template := .place .operand
/-- A byte register from the addressing byte. -/
def gb : Template := .register .byte
/-- A word register from the addressing byte. -/
def gw : Template := .register .word
/-- A register of the operand size from the addressing byte. -/
def gv : Template := .register .operand
/-- A constant of one byte. -/
def ib : Template := .immediate .byte
/-- A constant of one word. -/
def iw : Template := .immediate .word
/-- A constant of the operand size. -/
def iv : Template := .immediate .operand
/-- A distance of one byte. -/
def jb : Template := .relative .byte
/-- A distance of the operand size. -/
def jv : Template := .relative .operand
/-- The register `al`. -/
def al : Template := .fixed .al
/-- The register `ax`, widened to the operand size. -/
def wideAx : Template := .fixedWide .ax
/-- The register `dx`. -/
def dx : Template := .fixed .dx

/-- An opcode with one form. -/
def op (operation : Operation) (operands : List Template) : Entry :=
  .opcode (.form ⟨operation, operands⟩)

/-- An opcode that stands for nothing. -/
def undefined : Entry := .opcode .undefined

/-- An opcode with a group of forms. -/
def group (members : Fin 8 → Option Form) : Entry := .opcode (.group members)

/-- The arithmetic operation of a number. -/
def arithmetic : Fin 8 → Arithmetic
  | 0 => .add
  | 1 => .or
  | 2 => .adc
  | 3 => .sbb
  | 4 => .and
  | 5 => .sub
  | 6 => .xor
  | 7 => .cmp

/-- The rotation or shift of a number; one number is free. -/
def shift? : Fin 8 → Option Shift
  | 0 => some .rol
  | 1 => some .ror
  | 2 => some .rcl
  | 3 => some .rcr
  | 4 => some .shl
  | 5 => some .shr
  | 6 => none
  | 7 => some .sar

/-- Arithmetic on two operands. -/
def arithmeticGroup (target source : Template) : Fin 8 → Option Form :=
  fun n => some ⟨.arithmetic (arithmetic n), [target, source]⟩

/-- Shifts of an operand by a count. -/
def shiftGroup (target count : Template) : Fin 8 → Option Form :=
  fun n => (shift? n).map fun s => ⟨.shift s, [target, count]⟩

/-- A group whose only member is the first. -/
def soleGroup (form : Form) : Fin 8 → Option Form
  | 0 => some form
  | _ => none

/-- Tests, negations, products and quotients of one operand. -/
def unaryGroup (target constant : Template) : Fin 8 → Option Form
  | 0 => some ⟨.test, [target, constant]⟩
  | 1 => none
  | 2 => some ⟨.not, [target]⟩
  | 3 => some ⟨.neg, [target]⟩
  | 4 => some ⟨.mul, [target]⟩
  | 5 => some ⟨.imul, [target]⟩
  | 6 => some ⟨.div, [target]⟩
  | 7 => some ⟨.idiv, [target]⟩

/-- Increment and decrement of a byte. -/
def byteStepGroup : Fin 8 → Option Form
  | 0 => some ⟨.inc, [eb]⟩
  | 1 => some ⟨.dec, [eb]⟩
  | _ => none

/-- Increment, decrement, push, and the indirect transfers. -/
def indirectGroup : Fin 8 → Option Form
  | 0 => some ⟨.inc, [ev]⟩
  | 1 => some ⟨.dec, [ev]⟩
  | 2 => some ⟨.call, [ev]⟩
  | 3 => some ⟨.callFar, [.farMemory]⟩
  | 4 => some ⟨.jump, [ev]⟩
  | 5 => some ⟨.jumpFar, [.farMemory]⟩
  | 6 => some ⟨.push, [ev]⟩
  | 7 => none

/-- Task and local descriptor table registers, and segment checks. -/
def taskGroup : Fin 8 → Option Form
  | 0 => some ⟨.sldt, [ew]⟩
  | 1 => some ⟨.str, [ew]⟩
  | 2 => some ⟨.lldt, [ew]⟩
  | 3 => some ⟨.ltr, [ew]⟩
  | 4 => some ⟨.verr, [ew]⟩
  | 5 => some ⟨.verw, [ew]⟩
  | _ => none

/-- Global descriptor table registers and the machine status word. -/
def systemGroup : Fin 8 → Option Form
  | 0 => some ⟨.sgdt, [.memory]⟩
  | 1 => some ⟨.sidt, [.memory]⟩
  | 2 => some ⟨.lgdt, [.memory]⟩
  | 3 => some ⟨.lidt, [.memory]⟩
  | 4 => some ⟨.smsw, [ew]⟩
  | 6 => some ⟨.lmsw, [ew]⟩
  | _ => none

/-- The six forms of an arithmetic operation. -/
def arithmeticRow (operation : Arithmetic) : List Entry :=
  [op (.arithmetic operation) [eb, gb], op (.arithmetic operation) [ev, gv],
   op (.arithmetic operation) [gb, eb], op (.arithmetic operation) [gv, ev],
   op (.arithmetic operation) [al, ib], op (.arithmetic operation) [wideAx, iv]]

/-- One slot for each word register, widened to the operand size. -/
def registerRow (operation : Operation) : List Entry :=
  (List.finRange 8).map fun n => op operation [.fixedWide (.word n)]

/-- One slot for each condition, as short jumps. -/
def conditionRow : List Entry :=
  [.o, .no, .b, .ae, .e, .ne, .be, .a, .s, .ns, .p, .np, .l, .ge, .le, .g].map fun c =>
    op (.jumpIf c) [jb]

/-- Pushes or pops a segment register. -/
def onSegment (operation : Operation) (r : SegmentRegister) : Entry :=
  op operation [.fixed (.segment r)]

/-- The rows of the first map. -/
def primaryRows : List (List Entry) := [
  -- 00
  arithmeticRow .add, [onSegment .push .es, onSegment .pop .es],
  arithmeticRow .or, [onSegment .push .cs, .twoByte],
  -- 10
  arithmeticRow .adc, [onSegment .push .ss, onSegment .pop .ss],
  arithmeticRow .sbb, [onSegment .push .ds, onSegment .pop .ds],
  -- 20
  arithmeticRow .and, [.legacyPrefix, op .daa []],
  arithmeticRow .sub, [.legacyPrefix, op .das []],
  -- 30
  arithmeticRow .xor, [.legacyPrefix, op .aaa []],
  arithmeticRow .cmp, [.legacyPrefix, op .aas []],
  -- 40
  registerRow .inc, registerRow .dec,
  -- 50
  registerRow .push, registerRow .pop,
  -- 60
  [op .pusha [], op .popa [], op .bound [gv, .memory], op .arpl [ew, gw],
   undefined, undefined, .legacyPrefix, .legacyPrefix],
  [op .push [iv], op .imul [gv, ev, iv], op .push [.shortImmediate],
   op .imul [gv, ev, .shortImmediate], op .insb [], op .insw [], op .outsb [], op .outsw []],
  -- 70
  conditionRow,
  -- 80
  [group (arithmeticGroup eb ib), group (arithmeticGroup ev iv), group (arithmeticGroup eb ib),
   group (arithmeticGroup ev .shortImmediate),
   op .test [eb, gb], op .test [ev, gv], op .xchg [eb, gb], op .xchg [ev, gv]],
  [op .mov [eb, gb], op .mov [ev, gv], op .mov [gb, eb], op .mov [gv, ev],
   op .mov [ew, .segment], op .lea [gv, .memory], op .mov [.segment, ew],
   group (soleGroup ⟨.pop, [ev]⟩)],
  -- 90
  [op .nop []],
  (List.finRange 8).tail.map fun n => op .xchg [.fixedWide (.word n), wideAx],
  [op .cbw [], op .cwd [], op .callFar [.farPointer], op .wait [],
   op .pushf [], op .popf [], op .sahf [], op .lahf []],
  -- A0
  [op .mov [al, .offset .byte], op .mov [wideAx, .offset .operand],
   op .mov [.offset .byte, al], op .mov [.offset .operand, wideAx],
   op .movsb [], op .movsw [], op .cmpsb [], op .cmpsw []],
  [op .test [al, ib], op .test [wideAx, iv], op .stosb [], op .stosw [],
   op .lodsb [], op .lodsw [], op .scasb [], op .scasw []],
  -- B0
  (List.finRange 8).map fun n => op .mov [.fixed (.byte n), ib],
  (List.finRange 8).map fun n => op .mov [.fixedWide (.word n), iv],
  -- C0
  [group (shiftGroup eb ib), group (shiftGroup ev ib), op .ret [iw], op .ret [],
   op .les [gv, .farMemory], op .lds [gv, .farMemory],
   group (soleGroup ⟨.mov, [eb, ib]⟩), group (soleGroup ⟨.mov, [ev, iv]⟩)],
  [op .enter [iw, ib], op .leave [], op .retFar [iw], op .retFar [],
   op .interrupt [.constant 3], op .interrupt [ib], op .interruptOnOverflow [],
   op .interruptReturn []],
  -- D0
  [group (shiftGroup eb (.constant 1)), group (shiftGroup ev (.constant 1)),
   group (shiftGroup eb (.fixed .cl)), group (shiftGroup ev (.fixed .cl)),
   op .aam [ib], op .aad [ib], undefined, op .xlat []],
  List.replicate 8 .coprocessor,
  -- E0
  [op .loopNotEqual [jb], op .loopEqual [jb], op .loop [jb], op .jumpIfCountZero [jb],
   op .input [al, ib], op .input [wideAx, ib], op .output [ib, al], op .output [ib, wideAx]],
  [op .call [jv], op .jump [jv], op .jumpFar [.farPointer], op .jump [jb],
   op .input [al, dx], op .input [wideAx, dx], op .output [dx, al], op .output [dx, wideAx]],
  -- F0
  [.legacyPrefix, undefined, .legacyPrefix, .legacyPrefix, op .halt [], op .cmc [],
   group (unaryGroup eb ib), group (unaryGroup ev iv)],
  [op .clc [], op .stc [], op .cli [], op .sti [], op .cld [], op .std [],
   group byteStepGroup, group indirectGroup]]

/-- The entries of the first map, in the order of their bytes. -/
def primaryMap : Array Entry := primaryRows.flatten.toArray

/-- The entry of a first opcode byte. -/
def primary (b : UInt8) : Entry := primaryMap.getD b.toNat undefined

/-- The slot of an opcode byte behind `0F`. -/
def secondary (b : UInt8) : Slot :=
  match b.toNat with
  | 0 => .group taskGroup
  | 1 => .group systemGroup
  | 2 => .form ⟨.lar, [gv, ew]⟩
  | 3 => .form ⟨.lsl, [gv, ew]⟩
  | 6 => .form ⟨.clts, []⟩
  | _ => .undefined

end Opcode

end Disasm86
