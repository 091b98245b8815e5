import Disasm86.ByteMap
import Disasm86.Image

/-!
# Ranges of known bytes

The marks of an image's bytes, gathered into ranges. A range starts at every lead
byte. It also starts where the kind changes, and at a known byte behind an unknown
one, whether or not that byte is a lead.

## Main definitions

* `ByteItem`: A range of bytes of one kind.
* `ByteMap.items`: The ranges in an image.
-/

namespace Disasm86

/-- A range of bytes of one kind. -/
structure ByteItem where
  start : Address
  length : Nat
  kind : ByteKind
deriving DecidableEq, Repr

/-- Ranges found so far, the last first, and whether the last is still open. -/
structure ItemScan where
  items : List ByteItem := []
  isOpen : Bool := false

/-- Goes on to the next byte of a segment. -/
def ItemScan.step (m : ByteMap) (scan : ItemScan) (a : Address) : ItemScan :=
  let mark := m.get a
  if mark.isUnknown then { scan with isOpen := false }
  else
    match scan.items with
    | item :: rest =>
      if scan.isOpen && !mark.lead && item.kind = mark.kind then
        ⟨{ item with length := item.length + 1 } :: rest, true⟩
      else ⟨⟨a, 1, mark.kind⟩ :: item :: rest, true⟩
    | [] => ⟨[⟨a, 1, mark.kind⟩], true⟩

/-- The ranges of one segment, by ascending offset. -/
def ByteMap.segmentItems (m : ByteMap) (number : Int32) (s : Segment) : List ByteItem :=
  let addresses := (List.range s.data.size).map fun n =>
    (⟨number, Int32.ofNat (s.start + n)⟩ : Address)
  (addresses.foldl (ItemScan.step m) {}).items.reverse

/-- The ranges in an image, by ascending address. -/
def ByteMap.items (m : ByteMap) (image : Image) : List ByteItem :=
  image.segments.toList.zipIdx.flatMap fun (s, number) =>
    m.segmentItems (Int32.ofNat number) s

end Disasm86
