import Disasm86.Block.Store
import Disasm86.Diagnostic
import Disasm86.Reference.Log

/-!
# The control-flow graph

Which block control may pass to from which. An edge is a reference whose two ends are
known, seen as leading from the block that covers its source to the block that covers
its target. Calls are left out: they belong to the graph between procedures. A
reference that has no block at one of its ends is reported and makes no edge.

Two references between the same blocks are two edges.

## Main definitions

* `FlowEdge`: A reference, and the blocks of its two ends.
* `FlowGraph`: The edges, indexed by both ends.
* `FlowGraph.build`: The graph of recorded references.
* `FlowGraph.successors`, `FlowGraph.predecessors`: The neighbours of a block.
-/

namespace Disasm86

/-- A reference from one block to another. -/
structure FlowEdge where
  source : Nat
  target : Nat
  reference : Reference
deriving DecidableEq, Repr

/-- Edges between blocks, by the numbers of the blocks. -/
structure FlowGraph where
  edges : Array FlowEdge := #[]
  bySource : Postings Nat := {}
  byTarget : Postings Nat := {}

namespace FlowGraph

/-- There are no edges. -/
def empty : FlowGraph := {}

/-- Adds an edge behind those there are. -/
def add (g : FlowGraph) (edge : FlowEdge) : FlowGraph :=
  let position := g.edges.size
  { edges := g.edges.push edge
    bySource := g.bySource.post edge.source position
    byTarget := g.byTarget.post edge.target position }

/-- Whether a reference can be an edge at all. -/
def isFlow (r : Reference) : Bool :=
  r.source.isSomewhere && r.target.isSomewhere && !r.kind.isCall

/-- What is reported for a reference that has no block at `missing`. -/
def missingMessage (r : Reference) (missing : Address) : String :=
  "No block at " ++ missing.text ++ " for " ++ r.kind.name ++ " " ++ r.source.text ++ " -> "
    ++ r.target.text

/-- Adds the edge of a reference, or reports the end that has no block. If neither has
    one, it is the source that is reported. -/
def addReference (blocks : BlockStore) (state : FlowGraph × Diagnostics) (r : Reference) :
    FlowGraph × Diagnostics :=
  if isFlow r then
    match blocks.find? r.source, blocks.find? r.target with
    | some source, some target => (state.1.add ⟨source, target, r⟩, state.2)
    | none, _ =>
      (state.1, state.2.report r.source .unresolvedTarget (missingMessage r r.source))
    | some _, none =>
      (state.1, state.2.report r.target .unresolvedTarget (missingMessage r r.target))
  else state

/-- The graph of the recorded references, and the diagnostics with what was missing. -/
def build (blocks : BlockStore) (log : ReferenceLog) (diagnostics : Diagnostics) :
    FlowGraph × Diagnostics :=
  log.toList.foldl (addReference blocks) (empty, diagnostics)

/-- The blocks that edges lead to from a block, one for each edge. -/
def successors (g : FlowGraph) (block : Nat) : List Nat :=
  (g.bySource.select block g.edges).map (·.target)

/-- The blocks that edges lead from to a block, one for each edge. -/
def predecessors (g : FlowGraph) (block : Nat) : List Nat :=
  (g.byTarget.select block g.edges).map (·.source)

end FlowGraph

end Disasm86
