import Disasm86.Address

/-!
# Segmented images

The bytes under analysis, cut into segments. A segment covers a range of offsets
that starts at its base and never passes the last offset a 16-bit register can
hold, so a segment is a base, some bytes, and the fact that they fit.

A flat image is laid out from a base: the first segment starts there and takes
what fits, and the rest fills whole segments from offset zero. A flat image
always has a first segment, even when there are no bytes or no room for one.

Reading never crosses from one segment into the next. What decoding sees at an
address is the rest of its segment; the longest instruction is shorter than
`Image.windowSize`, so handing over that many bytes of the rest is enough.

## Main definitions

* `Segment`: A base offset and the bytes that follow it.
* `Image`: Segments in the order of their numbers.
* `Image.ofBytes`: Lays out a flat byte sequence.
* `Image.contains`: Whether an address names a byte of the image.
* `Image.bytes?`: So many bytes at an address.
* `Image.tail?`: The rest of the segment at an address.
* `Image.window?`: The front of that rest, long enough for any instruction.
-/

namespace Disasm86

/-- One more than the greatest offset of a segment. -/
def segmentSize : Nat := 0x10000

/-- A run of bytes at consecutive offsets of one segment. -/
structure Segment where
  /-- The offset of the first byte. -/
  base : UInt16
  /-- The bytes, in the order of their offsets. -/
  data : Array UInt8
  /-- The bytes end at or before the end of the offset range. -/
  fits : base.toNat + data.size ≤ segmentSize

namespace Segment

/-- A segment of the given bytes; those past the offset range are dropped. -/
def ofBytes (base : UInt16) (data : Array UInt8) : Segment where
  base := base
  data := data.extract 0 (segmentSize - base.toNat)
  fits := by
    have := base.toNat_lt
    simp only [Array.size_extract, segmentSize]
    omega

/-- The offset of the first byte, as a number. -/
def start (s : Segment) : Nat := s.base.toNat

/-- The offset just past the last byte. -/
def stop (s : Segment) : Nat := s.base.toNat + s.data.size

/-- Whether an offset names a byte of the segment. -/
def covers (s : Segment) (offset : Int32) : Bool :=
  (s.start : Int) ≤ offset.toInt && offset.toInt < s.stop

end Segment

/-- A segmented image; a segment's number is its position. -/
structure Image where
  segments : Array Segment

namespace Image

/-- The image without segments. -/
def empty : Image := ⟨#[]⟩

instance : EmptyCollection Image := ⟨empty⟩

/-- How many bytes of a segment decoding is shown at most. -/
def windowSize : Nat := 16

/-- Appends a segment; its number is the old segment count. -/
def addSegment (image : Image) (base : UInt16) (data : Array UInt8) : Image :=
  ⟨image.segments.push (Segment.ofBytes base data)⟩

/-- Cuts bytes into pieces of a whole segment each; the last may be shorter. -/
def wholeSegments (data : Array UInt8) : List (Array UInt8) :=
  if 0 < data.size then
    data.extract 0 segmentSize :: wholeSegments (data.extract segmentSize data.size)
  else []
termination_by data.size
decreasing_by simp only [Array.size_extract, segmentSize]; omega

/-- Lays out flat bytes: the first segment starts at `base` and takes what fits,
    and whole segments from offset zero take the rest. -/
def ofBytes (data : Array UInt8) (base : UInt16) : Image :=
  let room := segmentSize - base.toNat
  (wholeSegments (data.extract room data.size)).foldl (fun image piece => image.addSegment 0 piece)
    (empty.addSegment base (data.extract 0 room))

/-- The segment of a number, if the image has it. -/
def segment? (image : Image) (number : Int32) : Option Segment :=
  if number < 0 then none else image.segments[number.toInt.toNat]?

/-- The first offset of a segment and the offset just past it. -/
def bounds? (image : Image) (number : Int32) : Option (Nat × Nat) :=
  (image.segment? number).map fun s => (s.start, s.stop)

/-- Whether an address names a byte of the image. -/
def contains (image : Image) (a : Address) : Bool :=
  (image.segment? a.segment).any (·.covers a.offset)

/-- The `count` bytes at an address, if the segment has that many there. No bytes
    can be read just past the end of a segment, but none is asked for there. -/
def bytes? (image : Image) (a : Address) (count : Nat) : Option (List UInt8) :=
  match image.segment? a.segment with
  | none => none
  | some s =>
    if a.offset.toInt < s.start then none
    else
      let first := (a.offset.toInt - s.start).toNat
      if first + count ≤ s.data.size then some (s.data.extract first (first + count)).toList
      else none

/-- The bytes from an address to the end of its segment. -/
def tail? (image : Image) (a : Address) : Option (List UInt8) :=
  match image.segment? a.segment with
  | none => none
  | some s =>
    if s.covers a.offset then
      some (s.data.extract (a.offset.toInt - s.start).toNat s.data.size).toList
    else none

/-- The front of the bytes from an address to the end of its segment. -/
def window? (image : Image) (a : Address) : Option (List UInt8) :=
  match image.segment? a.segment with
  | none => none
  | some s =>
    if s.covers a.offset then
      let first := (a.offset.toInt - s.start).toNat
      some (s.data.extract first (first + windowSize)).toList
    else none

/-- How many bytes all segments hold together. -/
def byteCount (image : Image) : Nat :=
  image.segments.foldl (fun count s => count + s.data.size) 0

end Image

end Disasm86
