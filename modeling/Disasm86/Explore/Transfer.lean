import Disasm86.Explore.Session

/-!
# References of a transfer

What an instruction that transfers control makes known: where control may go next.
A target that the encoding names is queued to be followed. One that is computed when
the program runs is queued as well, with its target unknown, and will be reported
when its turn comes. A target outside the offsets of a segment is reported at once
and not followed.

A jump through a table is recognised by its operand: a word of memory in the code
segment, at a displacement from a register. The displacement is then taken for the
offset of the first slot.

## Main definitions

* `jumpTableSlot?`: The first slot of the table that a jump reads.
* `Session.emitTarget`: Queues the target of a jump or call.
* `Session.emit`: All references of an instruction that transfers control.
-/

namespace Disasm86

/-- The greatest offset of a segment. -/
def greatestOffset : Int32 := 0xFFFF

/-- The first slot of the jump table that an instruction reads, if it is a jump through
    the code segment with a register in its address. -/
def jumpTableSlot? (location : Address) (i : Instruction) : Option Address :=
  match i.operation, i.operands with
  | .jump, [.memory m] =>
    if m.segmentOverride = some (.segment .cs) ∧ m.size = some .word ∧ ¬ m.isDirect then
      some ⟨location.segment, m.displacement &&& greatestOffset⟩
    else none
  | _, _ => none

/-- Whether an offset can be reached by 16 bits. -/
def isReachableOffset (offset : Int32) : Bool :=
  0 ≤ offset && offset ≤ greatestOffset

namespace Session

/-- Queues the target of a jump or a call. One that leaves the segment is reported and
    recorded without a target instead. -/
def emitTarget (s : Session) (location : Address) (i : Instruction) (t : Transfer) : Session :=
  match i.branchTarget? location with
  | none => s.enqueue ⟨.transfer t, location, .nowhere, .nowhere⟩
  | some target =>
    if isReachableOffset target.offset then s.enqueue ⟨.transfer t, location, target, .nowhere⟩
    else
      (s.report location .addressWrapped
        ("Branch target " ++ Hex.literal 1 target.offset.toUInt32.toNat
          ++ " wraps around the segment")).record
        ⟨.transfer t, location, .nowhere, .nowhere⟩

/-- Queues the first slot of the jump table that an instruction reads, if it reads
    one. -/
def emitTable (s : Session) (location : Address) (i : Instruction) : Session :=
  match jumpTableSlot? location i with
  | none => s
  | some slot => s.enqueue (.probe location slot)

/-- Queues the instruction behind a transfer, if execution can go on there. -/
def emitFallThrough (s : Session) (location : Address) (i : Instruction) (t : Transfer) : Session :=
  if t.fallsThrough then s.enqueue ⟨.fallThrough, location, i.next location, .nowhere⟩ else s

/-- All references of an instruction that performs the transfer `t`. -/
def emit (s : Session) (location : Address) (i : Instruction) (t : Transfer) : Session :=
  if t.namesTarget then
    ((s.emitTable location i).emitTarget location i t).emitFallThrough location i t
  else
    (s.record ⟨.transfer t, location, .nowhere, .nowhere⟩).emitFallThrough location i t

end Session

end Disasm86
