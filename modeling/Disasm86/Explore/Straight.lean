import Disasm86.Decode
import Disasm86.Explore.Transfer
import Disasm86.Image
import Disasm86.Instruction.Printer

/-!
# Decoding a block

Straight-line decoding from an address that is known to be reached. It ends where
an instruction transfers control, where it runs into an instruction that is already
known, where a block has grown to its limit, or where it cannot go on: at the end of
the segment, at bytes that are no instruction, at an instruction that overlaps
something known, or at data. In the last four cases the block is broken.

Every instruction is marked in the byte map before the next one is looked at, so a
block can run into itself.

An instruction that overlaps something known is named in the report, by its text
without an address. Not every instruction has one, and where it has none, decoding
comes to nothing at all: there is neither a block nor a session to go on with.

The limit on the length of a block is also what the decoding recurses on.

## Main definitions

* `Limits`: How far an exploration goes.
* `Explorer`: What is explored, and how.
* `Stretch`: Where straight-line decoding ended, and why.
* `Explorer.decodeStretch`: Decodes from an address until something ends it.
* `Explorer.decodeBlock`: Decodes a block and puts it into the store.
-/

namespace Disasm86

/-- How far an exploration goes. -/
structure Limits where
  /-- How many slots of one jump table are read. -/
  tableSlots : Nat := 256
  /-- How many instructions a block has at most. -/
  blockInstructions : Nat := 4096
deriving DecidableEq, Repr, Inhabited

/-- What is explored, and how. -/
structure Explorer where
  image : Image
  context : DecodeContext := {}
  limits : Limits := {}

/-- The outcome of straight-line decoding. -/
structure Stretch where
  session : Session
  /-- The address behind the last instruction. -/
  stop : Address
  kind : BlockKind

namespace Explorer

/-- Reports that an instruction overlaps something known, if the instruction can be named. -/
def reportOverlap (location : Address) (i : Instruction) (s : Session) :
    Except Overflow Session :=
  i.text.map fun text =>
    s.report location .overlappingInstruction (text ++ " overlaps already classified bytes")

/-- Decodes at most `budget` instructions from `location` on. -/
def decodeStretch (e : Explorer) :
    (budget : Nat) → (location : Address) → Session → Except Overflow Stretch
  | 0, location, s =>
    .ok ⟨s.enqueue ⟨.fallThrough, s.previous location, location, .nowhere⟩, location,
      .fallThrough⟩
  | budget + 1, location, s =>
    match e.image.window? location with
    | none =>
      .ok ⟨s.report location .outOfImage "Execution runs past the end of the segment", location,
        .broken⟩
    | some code =>
      match decode e.context code with
      | .error cause =>
        .ok ⟨s.report location .invalidInstruction cause.message, location, .broken⟩
      | .ok i =>
        let next := i.next location
        if !s.bytes.isUnknownBetween location next then
          (reportOverlap location i s).map fun s => ⟨s, location, .broken⟩
        else
          match s.bytes.mark location next .code with
          | .error cause => .ok ⟨s.warn (.cannotClassify location cause), location, .broken⟩
          | .ok bytes =>
            let s := { s with bytes := bytes }
            match i.transfer? with
            | some t => .ok ⟨(s.emit location i t).index location i, next, .ofTransfer t⟩
            | none =>
              let s := s.index location i
              match (s.bytes.get next).kind with
              | .unknown => e.decodeStretch budget next s
              | .code =>
                .ok ⟨s.enqueue ⟨.fallThrough, location, next, .nowhere⟩, next, .fallThrough⟩
              | .data | .padding =>
                .ok ⟨s.report next .ranIntoData "Execution runs into data", next, .broken⟩

/-- Puts the block of a stretch that began at `start` into the store. -/
def closeBlock (start : Address) (stretch : Stretch) : Session :=
  let s := stretch.session
  if stretch.stop = start then s
  else
    let s :=
      if stretch.kind = .broken then
        s.report start .brokenBasicBlock ("Block ends abnormally at " ++ stretch.stop.text)
      else s
    match Block.ofRange start stretch.stop stretch.kind with
    | .error cause => s.warn (.cannotRecordBlock start cause)
    | .ok block => s.addBlock block

/-- Decodes the block that starts at an address of which nothing is known. -/
def decodeBlock (e : Explorer) (start : Address) (s : Session) : Except Overflow Session :=
  (e.decodeStretch e.limits.blockInstructions start s).map (closeBlock start)

end Explorer

end Disasm86
