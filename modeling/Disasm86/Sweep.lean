import Disasm86.Decode
import Disasm86.Image

/-!
# The linear sweep

Decoding a segment from its first byte to its last, whether or not anything leads
there. Where no instruction can be decoded, one byte is skipped.

A long segment is swept in chunks, and each chunk as if it were the whole. A chunk
may start in the middle of an instruction, and then its sweep is out of step at
first. Joining the chunks mends that: decoding goes on from where the chunk before
ended until it meets an instruction that the chunk has found as well, and from there
on the chunk is right.

The sweep does not know what decoding is. It is given a function from offsets to
instructions; an instruction without bytes counts as none.

## Main definitions

* `sweep`: The instructions between two offsets, one after the other.
* `chunks`: The ranges that a long range is cut into.
* `catchUp`: Decodes until in step with a chunk, and then takes the chunk.
* `sweepChunked`: The instructions between two offsets, chunk by chunk.
* `Image.segmentNumbers`: The numbers of the segments of an image.
* `linearSweep`: The instructions of all segments of an image.
-/

namespace Disasm86

/-- Decodes from `next` on until an instruction would start at `stop` or later. -/
def sweep (at? : Nat → Option Instruction) (stop next : Nat) : List (Nat × Instruction) :=
  if next < stop then
    match at? next with
    | none => sweep at? stop (next + 1)
    | some i =>
      if 0 < i.length then (next, i) :: sweep at? stop (next + i.length)
      else sweep at? stop (next + 1)
  else []
termination_by stop - next

/-- Cuts a range into ranges of `size` offsets; the last may be shorter. -/
def chunks (size start stop : Nat) : List (Nat × Nat) :=
  if start < stop ∧ 0 < size then
    (start, min (start + size) stop) :: chunks size (start + size) stop
  else []
termination_by stop - start

/-- The offset behind the last instruction of a list, or `next` if there is none. -/
def offsetBehind (next : Nat) (found : List (Nat × Instruction)) : Nat :=
  found.getLast?.elim next fun (offset, i) => offset + i.length

/-- Decodes from `next` on until a chunk that ends at `stop` has found the same
    instruction, and then goes on with what the chunk has found. Also gives the offset
    where decoding is to go on behind the chunk. -/
def catchUp (at? : Nat → Option Instruction) (stop : Nat) (found : List (Nat × Instruction))
    (next : Nat) : List (Nat × Instruction) × Nat :=
  if next < stop then
    if found.any (·.1 == next) then
      let rest := found.filter (next ≤ ·.1)
      (rest, offsetBehind next rest)
    else
      match at? next with
      | none => catchUp at? stop found (next + 1)
      | some i =>
        if 0 < i.length then
          let (ahead, behind) := catchUp at? stop found (next + i.length)
          ((next, i) :: ahead, behind)
        else catchUp at? stop found (next + 1)
  else ([], next)
termination_by stop - next

/-- Joins the sweeps of consecutive chunks, starting at `next`. -/
def joinChunks (at? : Nat → Option Instruction) (next : Nat) :
    List (Nat × Nat) → List (Nat × Instruction)
  | [] => []
  | (start, stop) :: rest =>
    let (ahead, behind) := catchUp at? stop (sweep at? stop start) next
    ahead ++ joinChunks at? behind rest

/-- Decodes from `start` to `stop` in chunks of `size` offsets. -/
def sweepChunked (at? : Nat → Option Instruction) (size start stop : Nat) :
    List (Nat × Instruction) :=
  joinChunks at? start (chunks size start stop)

/-- The number of offsets in a chunk. -/
def chunkSize : Nat := 4096

/-- The instruction at an address of an image, if its bytes make one. -/
def Image.instructionAt? (image : Image) (context : DecodeContext) (a : Address) :
    Option Instruction :=
  match image.window? a with
  | none => none
  | some code => (decode context code).toOption

/-- The instructions of one segment. -/
def sweepSegment (image : Image) (context : DecodeContext) (number : Int32) (start stop : Nat) :
    List (Address × Instruction) :=
  let at? (offset : Nat) := image.instructionAt? context ⟨number, Int32.ofNat offset⟩
  (sweepChunked at? chunkSize start stop).map fun (offset, i) => (⟨number, Int32.ofNat offset⟩, i)

/-- The numbers of the segments. A number has 32 bits with a sign, and so has the count. -/
def Image.segmentNumbers (image : Image) : List Int32 :=
  (List.range (Int32.ofNat image.segments.size).toInt.toNat).map Int32.ofNat

/-- The instructions of all segments, in the order of their addresses. -/
def linearSweep (image : Image) (context : DecodeContext) : List (Address × Instruction) :=
  image.segmentNumbers.flatMap fun number =>
    match image.bounds? number with
    | none => []
    | some (start, stop) => sweepSegment image context number start stop

end Disasm86
