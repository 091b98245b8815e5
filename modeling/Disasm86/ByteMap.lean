import Disasm86.Fault
import Std.Data.TreeMap

/-!
# Kinds of bytes

What each byte of an image has turned out to be. Nothing is known of a byte at
first; it gets its kind when the instruction, the table or the filler it belongs to
is recognised, and it keeps that kind from then on. Kinds are given to whole ranges,
and the first byte of a range is marked as its lead, so the ranges can be told apart
later even where they touch.

Marking a range is all or nothing: if one byte of it already has a kind, no byte of
it gets one. That is what keeps instructions from overlapping.

Only marked bytes are stored. Every other byte, also at a negative offset or in a
segment nobody has looked at, is unknown.

## Main definitions

* `ByteKind`, `ByteMark`: The kind of a byte, and whether it leads a range.
* `ByteMap`: The marks of all bytes.
* `ByteMap.get`: The mark of one byte.
* `ByteMap.firstTyped?`: The first byte of a range that has a kind.
* `ByteMap.mark`: Gives a range a kind.
* `ByteMap.count`: How many bytes are of a kind.
-/

namespace Disasm86

/-- What a byte is. -/
inductive ByteKind where
  | unknown
  | padding
  | code
  | data
deriving DecidableEq, Repr, Inhabited

/-- The kind of a byte, and whether the byte is the first of its range. -/
structure ByteMark where
  kind : ByteKind := .unknown
  lead : Bool := false
deriving DecidableEq, Repr, Inhabited

/-- Whether nothing is known of the byte. -/
def ByteMark.isUnknown (m : ByteMark) : Bool := m.kind = .unknown

/-- The marks of all bytes; a byte without an entry is unknown. -/
structure ByteMap where
  marks : Std.TreeMap Address ByteMark := ∅

namespace ByteMap

/-- No byte is known. -/
def empty : ByteMap := {}

/-- The mark of one byte. -/
def get (m : ByteMap) (a : Address) : ByteMark := m.marks.getD a {}

/-- The first of the `n` bytes from `a` on that has a kind. -/
def firstTyped? (m : ByteMap) (a : Address) : Nat → Option Address
  | 0 => none
  | n + 1 => if (m.get a).isUnknown then m.firstTyped? (a.advance 1) n else some a

/-- How many bytes lie between two offsets. -/
def spanSize (start stop : Address) : Nat :=
  (stop.offset.toInt - start.offset.toInt).toNat

/-- Whether nothing is known of the bytes from `start` up to the offset of `stop`. -/
def isUnknownBetween (m : ByteMap) (start stop : Address) : Bool :=
  (m.firstTyped? start (spanSize start stop)).isNone

/-- Gives the `n` bytes from `a` on the same mark. -/
def fill (m : ByteMap) (a : Address) (mark : ByteMark) : Nat → ByteMap
  | 0 => m
  | n + 1 => fill ⟨m.marks.insert a mark⟩ (a.advance 1) mark n

/-- Marks the `n` bytes from `a` on as one range. -/
def put (m : ByteMap) (a : Address) (kind : ByteKind) : Nat → ByteMap
  | 0 => m
  | n + 1 => fill ⟨m.marks.insert a ⟨kind, true⟩⟩ (a.advance 1) ⟨kind, false⟩ n

/-- Marks the bytes from `start` to just before `stop` as one range of a kind. If
    some of them already have a kind, the first of those is reported. -/
def mark (m : ByteMap) (start stop : Address) (kind : ByteKind) : Except Fault ByteMap :=
  if start.segment ≠ stop.segment then .error (.segmentMismatch start stop)
  else if stop.offset ≤ start.offset ∨ start.offset < 0 ∨ kind = .unknown then
    .error (.emptyRange start stop)
  else
    match m.firstTyped? start (spanSize start stop) with
    | some a => .error (.alreadyTyped a)
    | none => .ok (m.put start kind (spanSize start stop))

/-- How many addresses of each segment are missing below the last one listed, for
    addresses in ascending order. `previous` is the address listed before them. -/
def gaps (previous : Option Address) : List Address → Nat
  | [] => 0
  | a :: rest =>
    let first :=
      match previous with
      | some p => if p.segment = a.segment then p.offset.toInt + 1 else 0
      | none => 0
    (a.offset.toInt - first).toNat + gaps (some a) rest

/-- How many bytes are of a kind. Of the unknown bytes, those count that lie below
    the last known byte of their segment. -/
def count (m : ByteMap) : ByteKind → Nat
  | .unknown => gaps none m.marks.keys
  | kind => (m.marks.filter fun _ mark => mark.kind = kind).size

end ByteMap

end Disasm86
