import Disasm86.Instruction

/-!
# Instruction text

The line an instruction prints as: its prefixes, its mnemonic and its operands.
A segment prefix shows inside the memory operand it applies to; only where there
is no memory operand does it show in front of the mnemonic.

A relative branch has two texts. Where the instruction's address is known, the
branch prints its target, by name if the target has one. Where it is not, the
branch prints the distance from the start of the instruction, written `$+` or
`$-`, which is the one place the length of the instruction enters the text.

That distance is the sum of the displacement and the length, and it has to be a
32-bit word like the displacement. Where the sum is too large for one, there is no
text. The target of a known address is no such sum: it wraps, as addresses do.

## Main definitions

* `MemoryOperand.text`: A memory operand with its size and segment.
* `Overflow`: A distance that cannot be counted from the start of its instruction.
* `Instruction.text`: An instruction at an unknown address, if it can be printed.
* `Instruction.textAt`: An instruction at a known address.
-/

namespace Disasm86

/-- Names for addresses; an address without a name has `none`. -/
def Naming : Type := Address → Option String

/-- No address has a name. -/
def Naming.empty : Naming := fun _ => none

/-- A displacement behind registers, with its sign. A zero does not show. -/
def displacementText (d : Int32) : String :=
  if d = 0 then ""
  else if d < 0 then "-" ++ Hex.literal 1 d.toInt.natAbs
  else "+" ++ Hex.literal 1 d.toInt.natAbs

/-- `size ptr segment:[...]`, each part only where there is one. -/
def MemoryOperand.text (m : MemoryOperand) : String :=
  let size := m.size.elim "" fun s => s.keyword ++ " ptr "
  let segment := m.segmentOverride.elim "" fun r => r.text ++ ":"
  let place :=
    if m.isDirect then Hex.literal 1 (m.displacement.toUInt32 &&& 0xFFFF).toNat
    else
      "+".intercalate ((m.base.toList ++ m.index.toList).map Register.text)
        ++ (if 1 < m.scale then "*" ++ toString m.scale else "")
        ++ displacementText m.displacement
  size ++ segment ++ "[" ++ place ++ "]"

/-- The distance from the start of an instruction to a relative target. -/
def distanceText (d : Int) : String :=
  (if d < 0 then "$-" else "$+") ++ Hex.literal 1 d.natAbs

/-- A displacement, and the length of an instruction that cannot be added to it because
    32 bits have no room for the sum. -/
structure Overflow where
  displacement : Int32
  length : Nat
deriving DecidableEq, Repr

namespace Prefixes

/-- The lock or repeat prefix, with the blank that follows it. -/
def repeatText (p : Prefixes) : String :=
  match p.lockOrRepeat with
  | .none => ""
  | some .lock => "lock "
  | some .repeatEqual => "rep "
  | some .repeatNotEqual => "repne "

/-- The segment prefix where no operand shows it. -/
def segmentText (p : Prefixes) : String :=
  p.segment.elim "" fun r => r.text ++ ": "

end Prefixes

namespace Instruction

/-- One operand; `target` says how a relative branch prints. -/
def operandText (target : Int32 → String) : Operand → String
  | .immediate value size _ => Hex.literal 1 (value.toUInt32 &&& size.mask).toNat
  | .register r => r.text
  | .memory place => place.text
  | .relative displacement _ _ => target displacement
  | .pointer segment offset _ => Hex.literal 4 segment.toNat ++ ":" ++ Hex.literal 4 offset.toNat

/-- An instruction, with `target` for its relative branches. -/
def render (i : Instruction) (target : Int32 → String) : String :=
  let segment := if i.operands.any Operand.isMemory then "" else i.prefixes.segmentText
  let operands := ", ".intercalate (i.operands.map (operandText target))
  i.prefixes.repeatText ++ segment ++ i.operation.mnemonic
    ++ (if i.operands.isEmpty then "" else " " ++ operands)

/-- Why an operand cannot be printed without an address: its distance from the start of
    the instruction lies outside the range of a 32-bit word. -/
def operandOverflow? (length : Nat) : Operand → Option Overflow
  | .relative displacement _ _ =>
    let distance := displacement.toInt + length
    if -0x80000000 ≤ distance ∧ distance ≤ 0x7FFFFFFF then none else some ⟨displacement, length⟩
  | _ => none

/-- The text of an instruction whose address is not known, unless an operand cannot be
    printed. -/
def text (i : Instruction) : Except Overflow String :=
  match i.operands.findSome? (operandOverflow? i.length) with
  | some cause => .error cause
  | none =>
    .ok (i.render fun displacement => distanceText (displacement + Int32.ofNat i.length).toInt)

/-- The text of an instruction at `location`. A relative target prints as its name,
    or as an offset of at least four digits if it has none. -/
def textAt (i : Instruction) (location : Address) (names : Naming) : String :=
  i.render fun displacement =>
    let target := (i.next location).offsetBy displacement
    (names target).getD (Hex.literal 4 target.offset.toUInt32.toNat)

end Instruction

end Disasm86
