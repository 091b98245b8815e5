import Disasm86.Block
import Std.Data.TreeMap

/-!
# The store of blocks

Blocks that do not overlap. A block has a number that it keeps for good, and an index
leads from the address where a block starts to its number. Because blocks do not
overlap, the one that covers an address can only be the last that starts at or before
it, and a new block can only overlap the last that starts before its end.

Splitting cuts a block in two. The first part keeps the number and now runs into the
second; the second part is a new block and ends as the whole did.

## Main definitions

* `BlockStore`: Blocks by number, and their numbers by start.
* `BlockStore.refusal?`: Why a block cannot be added.
* `BlockStore.push`, `BlockStore.add`: Adds a block, or only one that overlaps no other.
* `BlockStore.find?`: The block that covers an address.
* `BlockStore.startingAt?`: The block that starts at an address.
* `BlockStore.split`: Cuts the block that covers an address.
* `BlockStore.inOrder`: The blocks in the order of their addresses.
-/

namespace Disasm86

/-- Blocks by number, and the number of the block that starts at an address. -/
structure BlockStore where
  blocks : Array Block := #[]
  starts : Std.TreeMap Address Nat := ∅

namespace BlockStore

/-- There are no blocks. -/
def empty : BlockStore := {}

/-- The number of blocks. -/
def size (s : BlockStore) : Nat := s.blocks.size

/-- The block of a number. -/
def get? (s : BlockStore) (id : Nat) : Option Block := s.blocks[id]?

/-- The number of the block that starts at an address. -/
def startingAt? (s : BlockStore) (a : Address) : Option Nat := s.starts[a]?

/-- The number of the block that covers an address. -/
def find? (s : BlockStore) (a : Address) : Option Nat :=
  match s.starts.getEntryLE? a with
  | none => none
  | some (_, id) => if (s.get? id).any (·.contains a) then some id else none

/-- The last block that starts before the end of `b`, in the same segment. -/
def lastBeforeStop? (s : BlockStore) (b : Block) : Option Block :=
  match s.starts.getEntryLT? b.stop with
  | none => none
  | some (start, id) => if start.segment = b.start.segment then s.get? id else none

/-- Why a block cannot be added. One that overlaps another is refused, and the other is
    reported by its start. -/
def refusal? (s : BlockStore) (b : Block) : Option Fault :=
  if b.length ≤ 0 then some (.emptyRange b.start b.stop)
  else
    match s.lastBeforeStop? b with
    | none => none
    | some other =>
      if b.start.offset.toInt < other.stopOffset then some (.blockOverlap other.start) else none

/-- A store with one more block, which gets the next number. -/
def push (s : BlockStore) (b : Block) : BlockStore :=
  let id := s.blocks.size
  ⟨s.blocks.push b, s.starts.insert b.start id⟩

/-- Adds a block and gives its number, unless the block is refused. -/
def add (s : BlockStore) (b : Block) : Except Fault (BlockStore × Nat) :=
  match s.refusal? b with
  | some cause => .error cause
  | none => .ok (s.push b, s.size)

/-- Cuts the block that covers `cut` into the part before it and the part from it on,
    and gives the numbers of both. A cut at the start of a block is refused. -/
def split (s : BlockStore) (cut : Address) : Except Fault (BlockStore × Nat × Nat) :=
  match s.find? cut with
  | none => .error (.splitOutsideBlock cut)
  | some id =>
    match s.get? id with
    | none => .error (.splitOutsideBlock cut)
    | some whole =>
      if whole.start = cut then .error (.splitOutsideBlock cut)
      else
        let headLength := cut.offset - whole.start.offset
        let head : Block := ⟨whole.start, headLength, .fallThrough⟩
        let tail : Block := ⟨cut, whole.length - headLength, whole.kind⟩
        .ok (⟨(s.blocks.setIfInBounds id head).push tail, s.starts.insert cut s.blocks.size⟩,
          id, s.blocks.size)

/-- The blocks and their numbers, by ascending start address. -/
def inOrder (s : BlockStore) : List (Nat × Block) :=
  s.starts.values.filterMap fun id => (s.get? id).map (id, ·)

end BlockStore

end Disasm86
