import Disasm86.Graph.Flow
import Disasm86.Proofs.Postings
import Mathlib.Logic.Relation

/-!
# The Edges of the Control-Flow Graph

The graph is built by going through the log once, and besides edges the building raises
diagnostics. For what the graph says about a program only the edges matter, and there is one
for each reference that has blocks at both of its ends. `edge?` is that one edge, and
`build_edges` says that the graph has nothing else. The diagnostics are out of sight from
there on.

Successors are looked up through an index. `FlowGraph.WellIndexed` says that the two indexes
are kept in step with the edges, so a block is a successor of another exactly if an edge
leads to it.

## Main definitions

* `FlowGraph.edge?`: The edge of a reference.
* `FlowGraph.Leads`: An edge leads from a block to another.
* `FlowGraph.WellIndexed`: The indexes are in step with the edges.

## Theorems

* `FlowGraph.build_edges`: The edges are those of the references, in order.
* `FlowGraph.wellIndexed_build`: The indexes of the graph are in step with its edges.
* `FlowGraph.leads_iff`: Successors are what edges lead to.
* `FlowGraph.leads_build_iff`: What leads from a block to another are references.
-/

namespace Disasm86

namespace FlowGraph

/-- The edge of a reference, if there are blocks at both of its ends. -/
def edge? (blocks : BlockStore) (r : Reference) : Option FlowEdge :=
  if isFlow r then
    match blocks.find? r.source, blocks.find? r.target with
    | some source, some target => some ⟨source, target, r⟩
    | _, _ => none
  else none

/-- Some edge leads from a block to another. -/
def Leads (g : FlowGraph) (b c : Nat) : Prop :=
  ∃ edge ∈ g.edges.toList, edge.source = b ∧ edge.target = c

/-- Both indexes are in step with the edges, so successors and predecessors are the edges filtered
    by one of their ends. -/
structure WellIndexed (g : FlowGraph) : Prop where
  bySource : g.bySource.Indexes (fun edge => some edge.source) g.edges
  byTarget : g.byTarget.Indexes (fun edge => some edge.target) g.edges

variable {g : FlowGraph} {blocks : BlockStore} {b c : Nat}

theorem WellIndexed.add (h : g.WellIndexed) (edge : FlowEdge) : (g.add edge).WellIndexed :=
  ⟨h.bySource.post rfl, h.byTarget.post rfl⟩

/-- Adding a reference adds its edge, whatever it reports. -/
theorem addReference_graph (blocks : BlockStore) (state : FlowGraph × Diagnostics)
    (r : Reference) :
    (addReference blocks state r).1 = (edge? blocks r).elim state.1 state.1.add := by
  unfold addReference edge?
  by_cases hflow : isFlow r
  · rw [if_pos hflow, if_pos hflow]
    cases blocks.find? r.source with
    | none => rfl
    | some source =>
        cases blocks.find? r.target with
        | none => rfl
        | some target => rfl
  · rw [if_neg hflow, if_neg hflow]
    rfl

/-- By induction on the references. Each adds the edge it has, at the end. -/
theorem foldl_addReference (blocks : BlockStore) (refs : List Reference)
    (state : FlowGraph × Diagnostics) (h : state.1.WellIndexed) :
    (refs.foldl (addReference blocks) state).1.edges.toList
        = state.1.edges.toList ++ refs.filterMap (edge? blocks)
      ∧ (refs.foldl (addReference blocks) state).1.WellIndexed := by
  induction refs generalizing state with
  | nil => exact ⟨by simp, h⟩
  | cons r rest ih =>
      have hgraph := addReference_graph blocks state r
      rw [List.foldl_cons]
      -- Without an edge the graph stays the same, though something may have been reported.
      cases hedge : edge? blocks r with
      | none =>
          rw [hedge, Option.elim_none] at hgraph
          have hrest := ih (addReference blocks state r) (by rw [hgraph]; exact h)
          rw [hgraph] at hrest
          rw [List.filterMap_cons_none hedge]
          exact hrest
      | some edge =>
          rw [hedge, Option.elim_some] at hgraph
          have hrest := ih (addReference blocks state r) (by rw [hgraph]; exact h.add edge)
          rw [hgraph] at hrest
          rw [List.filterMap_cons_some hedge, hrest.1]
          refine ⟨?_, hrest.2⟩
          simp [add]

section Build

variable (blocks : BlockStore) (log : ReferenceLog) (diagnostics : Diagnostics)

theorem wellIndexed_empty : empty.WellIndexed :=
  ⟨Postings.indexes_empty _, Postings.indexes_empty _⟩

/-- The edges of the graph are those of the recorded references, in the same order. -/
theorem build_edges : (build blocks log diagnostics).1.edges.toList
    = log.toList.filterMap (edge? blocks) :=
  (foldl_addReference blocks log.toList (empty, diagnostics) wellIndexed_empty).1

theorem wellIndexed_build : (build blocks log diagnostics).1.WellIndexed :=
  (foldl_addReference blocks log.toList (empty, diagnostics) wellIndexed_empty).2

end Build

/-- A reference has an edge if it is one of flow and there are blocks at both of its ends. -/
theorem edge?_eq_some_iff {r : Reference} {edge : FlowEdge} :
    edge? blocks r = some edge ↔ isFlow r ∧ blocks.find? r.source = some edge.source
      ∧ blocks.find? r.target = some edge.target ∧ edge.reference = r := by
  unfold edge?
  rcases edge with ⟨source, target, reference⟩
  by_cases hflow : isFlow r
  · rw [if_pos hflow]
    cases blocks.find? r.source with
    | none => simp
    | some s =>
        cases blocks.find? r.target with
        | none => simp
        | some t => simp [hflow, eq_comm]
  · rw [if_neg hflow]
    simp [hflow]

/-- The successors of a block are the blocks that edges lead to from it. -/
theorem WellIndexed.mem_successors_iff (h : g.WellIndexed) :
    c ∈ g.successors b ↔ g.Leads b c := by
  unfold successors Leads
  rw [h.bySource.select_eq b]
  simp only [List.mem_map, List.mem_filter, Option.some.injEq, decide_eq_true_eq, and_assoc]

/-- What leads from a block to another is a recorded reference between the two. -/
theorem leads_build_iff {log : ReferenceLog} {diagnostics : Diagnostics} :
    (build blocks log diagnostics).1.Leads b c ↔ ∃ r ∈ log.toList, isFlow r
      ∧ blocks.find? r.source = some b ∧ blocks.find? r.target = some c := by
  unfold Leads
  -- Edges and references are in step, so one can be asked for the other.
  rw [build_edges]
  constructor
  · intro h
    rcases h with ⟨edge, hmem, rfl, rfl⟩
    rcases List.mem_filterMap.mp hmem with ⟨r, hr, hedge⟩
    rcases edge?_eq_some_iff.mp hedge with ⟨hflow, hsource, htarget, -⟩
    exact ⟨r, hr, hflow, hsource, htarget⟩
  · intro h
    rcases h with ⟨r, hr, hflow, hsource, htarget⟩
    refine ⟨⟨b, c, r⟩, List.mem_filterMap.mpr ⟨r, hr, ?_⟩, rfl, rfl⟩
    exact edge?_eq_some_iff.mpr ⟨hflow, hsource, htarget, rfl⟩

end FlowGraph

end Disasm86
