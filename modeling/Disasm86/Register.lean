/-!
# Registers and operand sizes

The registers a real-mode program can name, and the widths its operands can have.
A general register is known by its width and the three-bit number that selects it
in an encoding, so the register files are families indexed by that number rather
than lists of unrelated names: widening a register keeps its number.

Numbers four to seven of the byte file are the upper halves of the first four
word registers, which is why the byte file has two families.

## Main definitions

* `OperandSize`: The width of an operand.
* `Register`: A general, segment or coprocessor stack register.
* `Register.general`: The general register that a number selects at a width.
* `Register.widen`: The double-word register that a word register is part of.
* `Register.text`: The name of a register in a listing.
-/

namespace Disasm86

/-- The width of an operand. -/
inductive OperandSize where
  | byte
  | word
  | dword
  | qword
  | tbyte
deriving DecidableEq, Repr, Inhabited

namespace OperandSize

/-- The word that announces a memory operand of this size. -/
def keyword : OperandSize → String
  | .byte => "byte"
  | .word => "word"
  | .dword => "dword"
  | .qword => "qword"
  | .tbyte => "tbyte"

/-- The bits of a 32-bit word that belong to an immediate of this size. -/
def mask : OperandSize → UInt32
  | .byte => 0xFF
  | .word => 0xFFFF
  | _ => 0xFFFFFFFF

/-- How many bytes encode an integer of this size. No integer takes more than
    four bytes, however wide the operand. -/
def encodedBytes : OperandSize → Nat
  | .byte => 1
  | .word => 2
  | _ => 4

/-- The size that a size prefix switches to. -/
def toggle : OperandSize → OperandSize
  | .dword => .word
  | _ => .dword

end OperandSize

/-- A segment register. -/
inductive SegmentRegister where
  | es
  | cs
  | ss
  | ds
deriving DecidableEq, Repr, Inhabited

namespace SegmentRegister

/-- The name of a segment register. -/
def text : SegmentRegister → String
  | .es => "es"
  | .cs => "cs"
  | .ss => "ss"
  | .ds => "ds"

/-- The segment register that a number selects; there are only four. -/
def ofNumber? : Nat → Option SegmentRegister
  | 0 => some .es
  | 1 => some .cs
  | 2 => some .ss
  | 3 => some .ds
  | _ => none

end SegmentRegister

/-- The family a register belongs to. -/
inductive RegisterFamily where
  | byteLow
  | byteHigh
  | word
  | dword
  | segment
  | stack
deriving DecidableEq, Repr

/-- A register, by its file and its number in that file. -/
inductive Register where
  /-- `al cl dl bl ah ch dh bh` -/
  | byte (number : Fin 8)
  /-- `ax cx dx bx sp bp si di` -/
  | word (number : Fin 8)
  /-- `eax ecx edx ebx esp ebp esi edi` -/
  | dword (number : Fin 8)
  | segment (register : SegmentRegister)
  /-- A place of the coprocessor stack, counted from its top. -/
  | stack (depth : Fin 8)
deriving DecidableEq, Repr, Inhabited

namespace Register

def al : Register := .byte 0
def cl : Register := .byte 1
def ax : Register := .word 0
def dx : Register := .word 2
def bx : Register := .word 3
def bp : Register := .word 5
def si : Register := .word 6
def di : Register := .word 7

/-- The top of the coprocessor stack. -/
def top : Register := .stack 0

/-- The general register that a number selects. Sizes without a register file of
    their own use the word registers. -/
def general : OperandSize → Fin 8 → Register
  | .byte, n => .byte n
  | .dword, n => .dword n
  | _, n => .word n

/-- A word register in double-word context; every other register stays itself. -/
def widen : Register → OperandSize → Register
  | .word n, .dword => .dword n
  | r, _ => r

/-- The family of a register. -/
def family : Register → RegisterFamily
  | .byte n => if n < 4 then .byteLow else .byteHigh
  | .word _ => .word
  | .dword _ => .dword
  | .segment _ => .segment
  | .stack _ => .stack

/-- The names of the byte registers, by number. -/
def byteNames : Vector String 8 := #v["al", "cl", "dl", "bl", "ah", "ch", "dh", "bh"]

/-- The names of the word registers, by number. -/
def wordNames : Vector String 8 := #v["ax", "cx", "dx", "bx", "sp", "bp", "si", "di"]

/-- The name of a register. -/
def text : Register → String
  | .byte n => byteNames.get n
  | .word n => wordNames.get n
  | .dword n => "e" ++ wordNames.get n
  | .segment r => r.text
  | .stack n => "st(" ++ toString n.val ++ ")"

/-- Every register, file by file. -/
def all : List Register :=
  let numbers := List.finRange 8
  numbers.map .byte ++ numbers.map .word ++ numbers.map .dword
    ++ [.segment .es, .segment .cs, .segment .ss, .segment .ds] ++ numbers.map .stack

/-- The register of a name. -/
def ofText? (name : String) : Option Register :=
  all.find? (·.text == name)

end Register

end Disasm86
