import Disasm86.Explore.Straight

/-!
# Following control flow

Exploring takes the next reference out of the queue, looks at its target, and does
what the byte there calls for: decode a block if nothing is known of it, cut a block
in two if the target is one of its inner instructions, and report what should not
happen. The reference is then recorded. Decoding puts further references into the
queue, and so it goes on until the queue is empty.

A slot of a jump table is different, because nothing says how long a table is. A slot
is accepted if nothing is known of its two bytes and the word in it could be the
offset of an instruction. Accepting it marks it as data, queues its target, and queues
the slot behind it. A slot that is not accepted ends the table without a trace.

Between two references an exploration can be cancelled. What has been found so far
stays, and exploring can be taken up again.

Exploring also ends where an instruction would have to be named in a report and has no
text. That is not a fault of the caller and not a finding about the program; nothing
comes of such an exploration, not even what it had found before.

Every reference but the first few was put into the queue by the decoding of at least
one byte that had been unknown, or by a slot of two, and no more than two references
for each byte. The number of references that can still come up is therefore bounded
by the queue and the size of the image, and the loop recurses on that bound.

This holds if a block may have an instruction. If it may not, decoding queues a
reference to the very place where it stands, over and over, and exploring would have no
end. The bound then ends it with references still pending.

## Main definitions

* `Explorer.visit`: Looks at the target of a reference.
* `Explorer.readSlot`: Reads a slot of a jump table.
* `Explorer.process`: Follows one reference.
* `Explorer.drain`: Follows references until the queue is empty or a bound is reached.
* `Explorer.run`, `Explorer.analyze`: Explores what is queued, or an entry point.
-/

namespace Disasm86

namespace Explorer

/-- Cuts the block that covers `cut`, and records that its first part runs into its
    second. -/
def splitBlock (cut : Address) (s : Session) : Session :=
  match s.blocks.split cut with
  | .error cause => s.warn (.cannotSplit cut cause)
  | .ok (blocks, _) =>
    let s := { s with blocks := blocks }
    match s.code.lastBefore? cut with
    | none => s
    | some (last, _) => s.record ⟨.fallThrough, last, cut, .nowhere⟩

/-- Reports something about the target of a reference. -/
def reportTarget (r : Reference) (code : DiagnosticCode) (what : String) (s : Session) : Session :=
  s.report r.target code (r.kind.name ++ " from " ++ r.source.text ++ " " ++ what)

/-- Looks at the target of a reference, and decodes or cuts a block if need be. -/
def visit (e : Explorer) (r : Reference) (s : Session) : Except Overflow Session :=
  if !e.image.contains r.target then .ok (reportTarget r .outOfImage "leaves the image" s)
  else
    let mark := s.bytes.get r.target
    match mark.kind with
    | .data | .padding => .ok (reportTarget r .ranIntoData "lands in data" s)
    | .code =>
      if (s.blocks.startingAt? r.target).isSome then .ok s
      else if !mark.lead then .ok (reportTarget r .ranIntoCode "lands inside an instruction" s)
      else .ok (splitBlock r.target s)
    | .unknown => e.decodeBlock r.target s

/-- Whether a word in a table may be the offset of an instruction, judged by what is
    known of the byte it leads to. -/
def isPlausibleTarget (landing : ByteMark) : Bool :=
  landing.isUnknown || (landing.kind = .code && landing.lead)

/-- Takes a slot into the table of the jump at `source`: it becomes data, and its target
    and the slot behind it are queued. -/
def acceptSlot (source slot target : Address) (s : Session) : Session :=
  let s := { s with tableSlots := s.tableSlots.insert source (s.tableSlots.getD source 0 + 1) }
  match s.bytes.mark slot (slot.advance 2) .data with
  | .error cause => s.warn (.cannotClassifySlot slot cause)
  | .ok bytes =>
    ({ s with bytes := bytes }.enqueue ⟨.indexedJump, source, target, slot⟩).enqueue
      (.probe source (slot.advance 2))

/-- Reads a slot of a jump table, and accepts it or lets the table end. -/
def readSlot (e : Explorer) (r : Reference) (s : Session) : Session :=
  if e.limits.tableSlots ≤ s.tableSlots.getD r.source 0 then s
  else
    match e.image.bytes? r.slot 2 with
    | none => s
    | some word =>
      let target : Address := ⟨r.source.segment, Int32.ofNat (littleEndian word)⟩
      if s.bytes.isUnknownBetween r.slot (r.slot.advance 2) && e.image.contains target
          && isPlausibleTarget (s.bytes.get target) && target != r.slot then
        acceptSlot r.source r.slot target s
      else s

/-- Follows one reference that has been taken out of the queue. -/
def process (e : Explorer) (r : Reference) (s : Session) : Except Overflow Session :=
  if r.isProbe then .ok (e.readSlot r s)
  else if !r.target.isSomewhere then
    .ok ((s.report r.source .dynamicTarget
      (r.kind.name ++ " target is computed at run time")).record r)
  else (e.visit r s).map (·.record r)

/-- Takes the next reference out of the queue and follows it. -/
def step? (e : Explorer) (s : Session) : Option (Except Overflow Session) :=
  match s.queue.pop? with
  | none => none
  | some (r, queue) => some (e.process r { s with queue := queue })

/-- Follows at most `bound` references. Before each of them, `cancelled` is asked
    whether to stop; its argument counts the questions. Where nothing is said to be wrong,
    the queue is empty or the bound has been reached. -/
def drain (e : Explorer) (cancelled : Nat → Bool) :
    (bound : Nat) → (asked : Nat) → Session → Except Overflow (Session × Except Fault Unit)
  | 0, _, s => .ok (s, .ok ())
  | bound + 1, asked, s =>
    match s.queue.pop? with
    | none => .ok (s, .ok ())
    | some (r, queue) =>
      if cancelled asked then .ok (s, .error .cancelled)
      else
        match e.process r { s with queue := queue } with
        | .error cause => .error cause
        | .ok s => e.drain cancelled bound (asked + 1) s

/-- A bound on the number of references that can come up from a session on, if blocks may
    have instructions. -/
def bound (e : Explorer) (s : Session) : Nat := s.pending + 2 * e.image.byteCount

/-- Follows references until the queue is empty or `cancelled` says so. If blocks may not
    have instructions, there are sessions whose queue never becomes empty, and then the run
    stops at the bound and leaves references pending. -/
def run (e : Explorer) (cancelled : Nat → Bool) (s : Session) :
    Except Overflow (Session × Except Fault Unit) :=
  e.drain cancelled (e.bound s) 0 s

/-- Queues an entry point and explores. -/
def analyze (e : Explorer) (cancelled : Nat → Bool) (entry : Address) (kind : ReferenceKind)
    (s : Session) : Except Overflow (Session × Except Fault Unit) :=
  if entry.isSomewhere then e.run cancelled (s.enqueue ⟨kind, .nowhere, entry, .nowhere⟩)
  else .ok (s, .error .unanchoredReference)

end Explorer

end Disasm86
