import Disasm86.Graph.Procedure

/-!
# The call graph

Which procedure calls which. A call belongs to every procedure that has the block it
stands in, so one call can make several edges; a call whose target is no procedure
makes none.

## Main definitions

* `CallEdge`: A call, with the procedure it is in and the one it leads to.
* `CallGraph`: The edges, in the order of the references.
* `CallGraph.callers`, `CallGraph.callees`: The neighbours of a procedure.
-/

namespace Disasm86

/-- A call from one procedure to another, by their numbers. -/
structure CallEdge where
  caller : Nat
  callee : Nat
  reference : Reference
deriving DecidableEq, Repr

/-- Calls between procedures. -/
structure CallGraph where
  edges : List CallEdge := []
deriving DecidableEq, Repr

/-- A list without its repetitions; of equal members the first stays. -/
def firstOccurrences : List Nat → List Nat
  | [] => []
  | n :: ns => n :: (firstOccurrences ns).filter (· ≠ n)

namespace CallGraph

/-- There are no calls. -/
def empty : CallGraph := {}

/-- The edges of one reference: one for each procedure that has the call. -/
def edgesOf (procedures : ProcedureTable) (blocks : BlockStore) (r : Reference) : List CallEdge :=
  if r.kind.isCall then
    match procedures.at? r.target, blocks.find? r.source with
    | some callee, some site => (procedures.owners site).map fun caller => ⟨caller, callee, r⟩
    | _, _ => []
  else []

/-- The call graph of recorded references. -/
def build (procedures : ProcedureTable) (blocks : BlockStore) (log : ReferenceLog) : CallGraph :=
  ⟨log.toList.flatMap (edgesOf procedures blocks)⟩

/-- The procedures that call a procedure, in the order of their first call. -/
def callers (g : CallGraph) (procedure : Nat) : List Nat :=
  firstOccurrences ((g.edges.filter (·.callee = procedure)).map (·.caller))

/-- The procedures that a procedure calls, in the order of their first call. -/
def callees (g : CallGraph) (procedure : Nat) : List Nat :=
  firstOccurrences ((g.edges.filter (·.caller = procedure)).map (·.callee))

end CallGraph

end Disasm86
