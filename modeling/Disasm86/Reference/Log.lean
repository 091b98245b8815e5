import Disasm86.Fault
import Disasm86.Postings
import Disasm86.Reference

/-!
# The log of references

All references found so far, in the order in which they were recorded. A reference
may be recorded more than once, and each time counts. Two indexes lead from an
address to the references that leave it and to those that arrive at it; an end that
is unknown is in neither.

## Main definitions

* `ReferenceLog`: The references and their two indexes.
* `ReferenceLog.push`: Adds a reference.
* `ReferenceLog.record`: Adds a reference that has at least one known end.
* `ReferenceLog.leaving`, `ReferenceLog.arriving`: The references of an address.
-/

namespace Disasm86

/-- Recorded references, indexed by both ends. -/
structure ReferenceLog where
  entries : Array Reference := #[]
  bySource : Postings Address := {}
  byTarget : Postings Address := {}

namespace ReferenceLog

/-- Nothing is recorded. -/
def empty : ReferenceLog := {}

/-- The references in the order of their recording. -/
def toList (log : ReferenceLog) : List Reference := log.entries.toList

/-- The number of references. -/
def size (log : ReferenceLog) : Nat := log.entries.size

/-- Posts a position under an address, unless the address is unknown. -/
def postKnown (index : Postings Address) (a : Address) (position : Nat) : Postings Address :=
  if a.isSomewhere then index.post a position else index

/-- Adds a reference behind the others. -/
def push (log : ReferenceLog) (r : Reference) : ReferenceLog :=
  let position := log.entries.size
  { entries := log.entries.push r
    bySource := postKnown log.bySource r.source position
    byTarget := postKnown log.byTarget r.target position }

/-- Adds a reference. One whose two ends are unknown is refused. -/
def record (log : ReferenceLog) (r : Reference) : Except Fault ReferenceLog :=
  if r.isAnchored then .ok (log.push r) else .error .unanchoredReference

/-- The references that leave an address, oldest first. -/
def leaving (log : ReferenceLog) (source : Address) : List Reference :=
  log.bySource.select source log.entries

/-- The references that arrive at an address, oldest first. -/
def arriving (log : ReferenceLog) (target : Address) : List Reference :=
  log.byTarget.select target log.entries

end ReferenceLog

end Disasm86
