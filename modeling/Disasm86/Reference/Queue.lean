import Disasm86.Reference

/-!
# The queue of pending references

References that are still to be followed. The queue hands them out by rank, and
those of one rank in the order in which they came in.

Each rank in use has a lane of its own, and the lanes stand in the order of their
ranks. A lane is kept as two lists, so that neither end has to be searched for: what
leaves is taken from the front, what comes in is put on the back, and the back is
turned over when the front has run out. A program may leave tens of thousands of
references of one rank pending, so a reference must not have to walk past the others.

## Main definitions

* `Lane`: References of one rank, first in, first out.
* `ReferenceQueue`: Lanes by rank.
* `ReferenceQueue.pending`: Pending references, the next one first.
* `ReferenceQueue.push`: Adds a reference.
* `ReferenceQueue.pop?`: Takes the next reference out.
-/

namespace Disasm86

/-- References that are handed out in the order in which they came in. -/
structure Lane where
  front : List Reference := []
  /-- The last one that came in stands first. -/
  back : List Reference := []
deriving DecidableEq, Repr

namespace Lane

/-- The references of a lane, the next one first. -/
def toList (l : Lane) : List Reference := l.front ++ l.back.reverse

/-- Adds a reference behind the others. -/
def push (l : Lane) (r : Reference) : Lane := { l with back := r :: l.back }

/-- The next reference, and the lane without it. -/
def pop? (l : Lane) : Option (Reference × Lane) :=
  match l.front with
  | r :: front => some (r, { l with front := front })
  | [] =>
    match l.back.reverse with
    | r :: front => some (r, ⟨front, []⟩)
    | [] => none

end Lane

/-- Lanes by ascending rank. -/
structure ReferenceQueue where
  lanes : List (Nat × Lane) := []
deriving DecidableEq, Repr

namespace ReferenceQueue

/-- Nothing is pending. -/
def empty : ReferenceQueue := {}

/-- Pending references, the next one first. -/
def pending (q : ReferenceQueue) : List Reference := q.lanes.flatMap fun x => x.2.toList

/-- Puts a reference into the lane of its rank, which is opened if there is none. -/
def pushLane (r : Reference) : List (Nat × Lane) → List (Nat × Lane)
  | [] => [(r.kind.rank, Lane.push {} r)]
  | (rank, lane) :: rest =>
    if rank < r.kind.rank then (rank, lane) :: pushLane r rest
    else if rank = r.kind.rank then (rank, lane.push r) :: rest
    else (r.kind.rank, Lane.push {} r) :: (rank, lane) :: rest

/-- Takes a reference out of the first lane that has one. Empty lanes are closed. -/
def popLane? : List (Nat × Lane) → Option (Reference × List (Nat × Lane))
  | [] => none
  | (rank, lane) :: rest =>
    match lane.pop? with
    | none => popLane? rest
    | some (r, lane) => some (r, (rank, lane) :: rest)

/-- Adds a reference behind those of its rank. -/
def push (q : ReferenceQueue) (r : Reference) : ReferenceQueue := ⟨pushLane r q.lanes⟩

/-- The next reference, and the queue without it. -/
def pop? (q : ReferenceQueue) : Option (Reference × ReferenceQueue) :=
  (popLane? q.lanes).map fun x => (x.1, ⟨x.2⟩)

/-- The number of pending references. -/
def size (q : ReferenceQueue) : Nat := q.pending.length

/-- Whether nothing is pending. -/
def isEmpty (q : ReferenceQueue) : Bool := q.pending.isEmpty

end ReferenceQueue

end Disasm86
