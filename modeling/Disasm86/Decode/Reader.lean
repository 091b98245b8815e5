import Disasm86.Instruction

/-!
# Reading an encoding

Decoding reads bytes from the front of a window, one after the other, and fails when
the window ends too early. A reader carries the bytes that are left and how many
went before them. The count is only ever used to say where a field stands; no
decision looks at it, so reading the same bytes at another position gives the same
operands with their fields moved.

## Main definitions

* `DecodeError`: Why bytes are not an instruction.
* `Cursor`: The bytes that are left and the number of bytes before them.
* `Reader`: A computation that reads bytes from a cursor.
* `Reader.byte`, `Reader.take`: One byte, and so many bytes.
* `Reader.signed`: A little-endian number, sign-extended, with its field.
-/

namespace Disasm86

/-- Why bytes are not an instruction. -/
inductive DecodeError where
  /-- The window ends inside the instruction. -/
  | truncated
  /-- The opcode byte stands for no operation. -/
  | invalidOpcode (byte : UInt8)
  /-- A second prefix of a group that already has one. -/
  | conflictingPrefix (byte : UInt8)
  /-- The addressing byte selects an operand that the opcode does not take. -/
  | invalidOperand (opcode : UInt8)
  /-- A memory operand with addresses of another size than 16 bits. -/
  | unsupportedAddressSize
deriving DecidableEq, Repr

/-- The wording of each error. -/
def DecodeError.message : DecodeError → String
  | .truncated => "Instruction runs past the end of the byte window"
  | .invalidOpcode b => "Invalid opcode " ++ Hex.literal 2 b.toNat
  | .conflictingPrefix b => "Conflicting prefix " ++ Hex.literal 2 b.toNat
  | .invalidOperand b => "Invalid operand encoding for opcode " ++ Hex.literal 2 b.toNat
  | .unsupportedAddressSize => "32-bit addressing is not supported"

/-- A place in a window: the number of bytes before it and the bytes behind it. -/
structure Cursor where
  position : Nat
  rest : List UInt8
deriving DecidableEq, Repr

/-- A computation that reads bytes from a cursor and moves it. -/
abbrev Reader (α : Type) := StateT Cursor (Except DecodeError) α

/-- The number that bytes denote, the least significant one first. -/
def littleEndian : List UInt8 → Nat
  | [] => 0
  | b :: bs => b.toNat + 256 * littleEndian bs

/-- The signed number that bytes denote in two's complement, as a 32-bit word. -/
def signedLittleEndian (bs : List UInt8) : Int32 :=
  Int32.ofInt ((littleEndian bs : Int).bmod (Nat.pow 2 (8 * bs.length)))

namespace Reader

/-- The next byte. -/
def byte : Reader UInt8 := fun c =>
  match c.rest with
  | [] => .error .truncated
  | b :: bs => .ok (b, ⟨c.position + 1, bs⟩)

/-- The next `n` bytes. -/
def take : Nat → Reader (List UInt8)
  | 0 => pure []
  | n + 1 => do
    let b ← byte
    let bs ← take n
    return b :: bs

/-- The number of bytes read so far. -/
def position : Reader Nat := fun c => .ok (c.position, c)

/-- The next `n` bytes and the field they make up. -/
def field (n : Nat) : Reader (List UInt8 × Field) := do
  let start ← position
  let bs ← take n
  return (bs, ⟨start, n⟩)

/-- A number of the given size, sign-extended to 32 bits, and its field. -/
def signed (size : OperandSize) : Reader (Int32 × Field) := do
  let (bs, f) ← field size.encodedBytes
  return (signedLittleEndian bs, f)

end Reader

end Disasm86
