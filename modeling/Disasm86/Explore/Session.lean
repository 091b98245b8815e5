import Disasm86.Block.Store
import Disasm86.ByteMap
import Disasm86.CodeIndex
import Disasm86.Diagnostic
import Disasm86.Reference.Log
import Disasm86.Reference.Queue

/-!
# The state of an exploration

Everything that following the control flow of a program has found out so far, and
what is still to be followed. The stores depend on each other: the bytes marked as
code are those of the indexed instructions, and blocks cover just these. No store
checks that; it holds because of the order in which exploring writes to them.

A store can refuse what it is asked to do. Exploring never lets that stop it. The
refusal is kept as a warning.

Where a store is large, its own test is made before it is written to, so that the old
store is not kept beside the new one. `record_eq` and `addBlock_eq` say that this comes to
the same as asking the store to do both.

## Main definitions

* `Warning`: Something a store refused.
* `Session`: The stores of an exploration and its queue.
* `Session.enqueue`, `Session.report`: Small updates.
* `Session.record`, `Session.addBlock`: Updates that a store may refuse.

## Theorems

* `record_eq`, `addBlock_eq`: What a store refuses is what leads to a warning.
-/

namespace Disasm86

/-- Something that a store refused, and why. -/
inductive Warning where
  | droppedReference (reference : Reference) (cause : Fault)
  | cannotSplit (location : Address) (cause : Fault)
  | cannotClassify (location : Address) (cause : Fault)
  | cannotClassifySlot (slot : Address) (cause : Fault)
  | cannotRecordBlock (start : Address) (cause : Fault)
deriving DecidableEq, Repr

/-- The wording of each warning. -/
def Warning.message : Warning → String
  | .droppedReference r cause =>
    "Dropping " ++ r.kind.name ++ " reference at " ++ r.source.text ++ ": " ++ cause.message
  | .cannotSplit a cause => "Cannot split at " ++ a.text ++ ": " ++ cause.message
  | .cannotClassify a cause => "Cannot classify " ++ a.text ++ " as code: " ++ cause.message
  | .cannotClassifySlot a cause =>
    "Cannot classify jump table slot " ++ a.text ++ ": " ++ cause.message
  | .cannotRecordBlock a cause => "Cannot record block at " ++ a.text ++ ": " ++ cause.message

/-- What is known of a program, and what is still to be followed. -/
structure Session where
  bytes : ByteMap := {}
  blocks : BlockStore := {}
  references : ReferenceLog := {}
  diagnostics : Diagnostics := {}
  code : CodeIndex := {}
  queue : ReferenceQueue := {}
  /-- How many slots have been accepted for the jump at an address. -/
  tableSlots : Std.TreeMap Address Nat := ∅
  warnings : Array Warning := #[]

namespace Session

/-- Nothing is known and nothing is pending. -/
def fresh : Session := {}

/-- Puts a reference into the queue. -/
def enqueue (s : Session) (r : Reference) : Session :=
  { s with queue := s.queue.push r }

/-- The number of pending references. -/
def pending (s : Session) : Nat := s.queue.size

/-- Raises a diagnostic. -/
def report (s : Session) (location : Address) (code : DiagnosticCode) (message : String) :
    Session :=
  { s with diagnostics := s.diagnostics.report location code message }

/-- Keeps a warning. -/
def warn (s : Session) (w : Warning) : Session :=
  { s with warnings := s.warnings.push w }

/-- Puts an instruction into the index. -/
def index (s : Session) (a : Address) (i : Instruction) : Session :=
  { s with code := s.code.insert a i }

/-- Records a reference, or warns that it has no known end. -/
def record (s : Session) (r : Reference) : Session :=
  if r.isAnchored then { s with references := s.references.push r }
  else s.warn (.droppedReference r .unanchoredReference)

theorem record_eq (s : Session) (r : Reference) :
    s.record r = match s.references.record r with
      | .ok references => { s with references := references }
      | .error cause => s.warn (.droppedReference r cause) := by
  unfold record ReferenceLog.record
  by_cases h : r.isAnchored
  · simp only [if_pos h]
  · simp only [if_neg h]

/-- Puts a block into the store, or warns that the store refuses it. -/
def addBlock (s : Session) (b : Block) : Session :=
  match s.blocks.refusal? b with
  | some cause => s.warn (.cannotRecordBlock b.start cause)
  | none => { s with blocks := s.blocks.push b }

theorem addBlock_eq (s : Session) (b : Block) :
    s.addBlock b = match s.blocks.add b with
      | .ok (blocks, _) => { s with blocks := blocks }
      | .error cause => s.warn (.cannotRecordBlock b.start cause) := by
  unfold addBlock BlockStore.add
  cases s.blocks.refusal? b with
  | none => rfl
  | some cause => rfl

/-- The address of the last instruction before an address, if there is one. -/
def previous (s : Session) (a : Address) : Address :=
  (s.code.lastBefore? a).elim .nowhere (·.1)

end Session

end Disasm86
