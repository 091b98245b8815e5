import Disasm86.Explore
import Disasm86.Graph.Call

/-!
# Analyses

The result of a finished exploration: its stores, and the graphs derived from them.

An analysis starts at entry points. Each has to be a byte of the image, and the first
that is not is refused before anything is explored. Without entry points the analysis
starts at the first byte of the first segment. All entry points are queued before the
first is followed.

There is no analysis if an entry point is refused, if exploring is cancelled, or if it
comes to an instruction that it cannot name.

## Main definitions

* `Analysis`: Stores and graphs of a program.
* `Analysis.ofSession`: The graphs of what has been explored.
* `AnalysisOptions`: Limits, and whether procedures are wanted.
* `Stop`: Why there is no analysis.
* `seedEntries`: A session with the entry points queued.
* `analyzeImage`: The analysis of an image from its entry points.
-/

namespace Disasm86

/-- What is known of a program, with the graphs derived from it. -/
structure Analysis where
  code : CodeIndex
  bytes : ByteMap
  blocks : BlockStore
  references : ReferenceLog
  flow : FlowGraph
  procedures : ProcedureTable
  calls : CallGraph
  diagnostics : Diagnostics

namespace Analysis

/-- Derives the control-flow graph, and the procedures and their calls if they are
    wanted. -/
def ofSession (s : Session) (buildProcedures : Bool) : Analysis :=
  let (flow, diagnostics) := FlowGraph.build s.blocks s.references s.diagnostics
  let (procedures, diagnostics) :=
    if buildProcedures then
      ProcedureTable.detect s.blocks s.references s.code flow diagnostics
    else (.empty, diagnostics)
  { code := s.code
    bytes := s.bytes
    blocks := s.blocks
    references := s.references
    flow := flow
    procedures := procedures
    calls := if buildProcedures then .build procedures s.blocks s.references else .empty
    diagnostics := diagnostics }

/-- The instructions of a block, by ascending address. -/
def blockInstructions (a : Analysis) (b : Block) : List (Address × Instruction) :=
  a.code.inRange b.start b.stop

end Analysis

/-- How an image is analysed. -/
structure AnalysisOptions where
  limits : Limits := {}
  buildProcedures : Bool := true
deriving DecidableEq, Repr, Inhabited

/-- Why there is no analysis of an image. -/
inductive Stop where
  /-- An entry point was refused, or the analysis was cancelled. -/
  | fault (cause : Fault)
  /-- An instruction had to be named that has no text. -/
  | overflow (cause : Overflow)
deriving DecidableEq, Repr

/-- Queues entry points from the first to the last, up to one that the image does not
    have. -/
def seedEntries (image : Image) (s : Session) : List Address → Except Fault Session
  | [] => .ok s
  | entry :: rest =>
    if !entry.isSomewhere then .error .unanchoredReference
    else if !image.contains entry then .error (.outsideImage entry)
    else seedEntries image (s.enqueue ⟨.entry, .nowhere, entry, .nowhere⟩) rest

/-- The entry point of an image for which none is given. -/
def defaultEntries (image : Image) : List Address :=
  (image.bounds? 0).toList.map fun (start, _) => ⟨0, Int32.ofNat start⟩

/-- Explores an image from its entry points and derives its graphs. -/
def analyzeImage (image : Image) (context : DecodeContext) (entries : List Address)
    (options : AnalysisOptions) (cancelled : Nat → Bool) : Except Stop Analysis :=
  let entries := if entries.isEmpty then defaultEntries image else entries
  match seedEntries image .fresh entries with
  | .error fault => .error (.fault fault)
  | .ok seeded =>
    let explorer : Explorer := ⟨image, context, options.limits⟩
    match explorer.run cancelled seeded with
    | .error cause => .error (.overflow cause)
    | .ok (_, .error fault) => .error (.fault fault)
    | .ok (s, .ok ()) => .ok (.ofSession s options.buildProcedures)

end Disasm86
