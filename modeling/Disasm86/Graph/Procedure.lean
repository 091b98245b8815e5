import Disasm86.CodeIndex
import Disasm86.Graph.Flow
import Std.Data.TreeSet

/-!
# Procedures

A procedure starts where a call leads or where a user named an entry point, and has
all blocks that control can reach from there without a call. Blocks can be shared by
several procedures.

The ways in which a procedure returns are read off its instructions. A procedure
should have exactly one, and a call should be of the same kind as the return; where
that is not so, a warning is raised. A procedure without any return is warned about
once, and its calls are not.

Reachability keeps the set of blocks that have not been reached yet. It shrinks with
every block that is, which is why the search ends.

## Main definitions

* `Returns`: The ways in which a procedure returns.
* `Procedure`: An entry point, and the blocks reached from it.
* `reachableFrom`: The blocks that control can reach from a block.
* `ProcedureTable`: Procedures by number, and by entry point.
* `ProcedureTable.detect`: The procedures of recorded references.
-/

namespace Disasm86

/-- The ways in which a procedure returns to its caller. -/
structure Returns where
  near : Bool := false
  far : Bool := false
  interrupt : Bool := false
deriving DecidableEq, Repr, Inhabited

namespace Returns

/-- The names of the ways there are. -/
def names (r : Returns) : List String :=
  (if r.near then ["near"] else []) ++ (if r.far then ["far"] else [])
    ++ (if r.interrupt then ["interrupt"] else [])

/-- The names, or `none` if there is no way. -/
def text (r : Returns) : String :=
  if r.names.isEmpty then "none" else "|".intercalate r.names

/-- How many ways there are. -/
def count (r : Returns) : Nat := r.near.toNat + r.far.toNat + r.interrupt.toNat

/-- The ways that a set of bits names; bits without a meaning are dropped. -/
def ofBits (n : Nat) : Returns := ⟨n.testBit 0, n.testBit 1, n.testBit 2⟩

/-- Adds the way in which an operation returns, if it does. -/
def addOperation (r : Returns) : Operation → Returns
  | .ret => { r with near := true }
  | .retFar => { r with far := true }
  | .interruptReturn => { r with interrupt := true }
  | _ => r

/-- Whether a call of a kind comes back by one of the ways. Only near calls expect a
    near return. -/
def answers (r : Returns) (kind : ReferenceKind) : Bool :=
  if kind = .transfer .nearCall then r.near else r.far

end Returns

/-- An entry point, and everything that is reached from it. -/
structure Procedure where
  entry : Address
  /-- The number of the block that starts at the entry point. -/
  entryBlock : Nat
  /-- The numbers of the blocks reached. -/
  blocks : Std.TreeSet Nat
  returns : Returns

/-- Reaching a block leaves fewer to be reached. -/
theorem size_erase_lt_of_contains {unseen : Std.TreeSet Nat} {b : Nat}
    (h : unseen.contains b = true) : (unseen.erase b).size < unseen.size := by
  have hne := Std.TreeSet.isEmpty_eq_false_of_contains h
  rw [Std.TreeSet.isEmpty_eq_size_eq_zero, beq_eq_false_iff_ne] at hne
  rw [Std.TreeSet.size_erase, if_pos h]
  omega

/-- Goes on with a search whose stack is given, by blocks in `unseen` only. -/
def searchBlocks (successors : Nat → List Nat) (unseen seen : Std.TreeSet Nat) :
    (stack : List Nat) → Std.TreeSet Nat
  | [] => seen
  | b :: stack =>
    if unseen.contains b then
      searchBlocks successors (unseen.erase b) (seen.insert b) (successors b ++ stack)
    else searchBlocks successors unseen seen stack
termination_by stack => (unseen.size, stack.length)
decreasing_by
  · exact Prod.Lex.left _ _ (size_erase_lt_of_contains ‹_›)
  · exact Prod.Lex.right _ (by simp)

/-- The blocks that control can reach from `entry`, among the first `count` blocks. -/
def reachableFrom (g : FlowGraph) (count entry : Nat) : Std.TreeSet Nat :=
  searchBlocks g.successors (.ofList (List.range count)) ∅ [entry]

/-- The ways in which the instructions of some blocks return. -/
def returnsOf (members : List Nat) (blocks : BlockStore) (code : CodeIndex) : Returns :=
  (members.filterMap blocks.get?).foldl
    (fun returns b =>
      (code.inRange b.start b.stop).foldl (fun r (_, i) => r.addOperation i.operation) returns)
    {}

/-- Procedures by number, and the number of the procedure at an entry point. -/
structure ProcedureTable where
  procedures : Array Procedure := #[]
  byEntry : Std.TreeMap Address Nat := ∅

namespace ProcedureTable

/-- There are no procedures. -/
def empty : ProcedureTable := {}

/-- The number of procedures. -/
def size (t : ProcedureTable) : Nat := t.procedures.size

/-- The procedure of a number. -/
def get? (t : ProcedureTable) (id : Nat) : Option Procedure := t.procedures[id]?

/-- The number of the procedure at an entry point. -/
def at? (t : ProcedureTable) (entry : Address) : Option Nat := t.byEntry[entry]?

/-- The numbers of the procedures that have a block, in ascending order. -/
def owners (t : ProcedureTable) (block : Nat) : List Nat :=
  t.procedures.toList.zipIdx.filterMap fun (p, id) =>
    if p.blocks.contains block then some id else none

/-- The procedures and their numbers, by ascending entry point. -/
def inOrder (t : ProcedureTable) : List (Nat × Procedure) :=
  t.byEntry.values.filterMap fun id => (t.get? id).map (id, ·)

/-- Adds a procedure behind those there are. -/
def push (t : ProcedureTable) (p : Procedure) : ProcedureTable where
  procedures := t.procedures.push p
  byEntry := t.byEntry.insert p.entry t.procedures.size

/-- Warns about a procedure that does not return in exactly one way. -/
def checkReturns (p : Procedure) (ds : Diagnostics) : Diagnostics :=
  match p.returns.count with
  | 0 =>
    ds.report p.entry .inconsistentCall "Procedure never returns via a direct return"
  | 1 => ds
  | _ =>
    ds.report p.entry .inconsistentCall
      ("Procedure has mixed return types (" ++ p.returns.text ++ ")")

/-- Warns about a call that the procedure does not return from in kind. -/
def checkCall (r : Reference) (p : Procedure) (ds : Diagnostics) : Diagnostics :=
  if p.returns.count ≠ 0 ∧ !p.returns.answers r.kind then
    ds.report r.source .inconsistentCall
      (r.kind.name ++ " to " ++ p.entry.text ++ " which returns " ++ p.returns.text)
  else ds

/-- Whether the target of a reference is the entry of a procedure. -/
def isRoot (r : Reference) : Bool :=
  (r.kind.isCall || r.kind = .entry) && r.target.isSomewhere

/-- The procedure at an entry point: the one there is, or a new one if a block starts
    there. -/
def findOrCreate (blocks : BlockStore) (code : CodeIndex) (g : FlowGraph) (entry : Address)
    (state : ProcedureTable × Diagnostics) : (ProcedureTable × Diagnostics) × Option Procedure :=
  match state.1.at? entry with
  | some id => (state, state.1.get? id)
  | none =>
    match blocks.startingAt? entry with
    | none => (state, none)
    | some entryBlock =>
      let members := reachableFrom g blocks.size entryBlock
      let p : Procedure := ⟨entry, entryBlock, members, returnsOf members.toList blocks code⟩
      ((state.1.push p, checkReturns p state.2), some p)

/-- Makes the procedure that a reference calls for, and checks the call. -/
def addReference (blocks : BlockStore) (code : CodeIndex) (g : FlowGraph)
    (state : ProcedureTable × Diagnostics) (r : Reference) : ProcedureTable × Diagnostics :=
  if isRoot r then
    match findOrCreate blocks code g r.target state with
    | (state, none) => state
    | (state, some p) => if r.kind.isCall then (state.1, checkCall r p state.2) else state
  else state

/-- The procedures that the recorded references call for, in the order in which they
    first do, and the diagnostics with the warnings about them. -/
def detect (blocks : BlockStore) (log : ReferenceLog) (code : CodeIndex) (g : FlowGraph)
    (diagnostics : Diagnostics) : ProcedureTable × Diagnostics :=
  log.toList.foldl (addReference blocks code g) (empty, diagnostics)

end ProcedureTable

end Disasm86
