import Disasm86.Proofs.Findings
import Disasm86.Proofs.Sources

/-!
# The Control-Flow Graph of a Finished Analysis

The graph is built when exploring is over. Each recorded reference that could be an edge is
looked up then, among blocks that have been cut since the reference was made. It becomes an
edge if there are blocks at both ends, and a message otherwise.

There is always a block at the source, since references leave the ends of blocks. So a
message is about a target, and there an error has been reported when the reference was
followed, because otherwise a block would start there. For the same reason the block that an
edge arrives at starts at the target, unless an error says that the target lies inside of it.

## Main definitions

* `FlowGraph.resolves`: Whether there are blocks at both ends of a reference.
* `FlowGraph.unresolvedAt`: The message about the target of a reference.
* `Analysis.FlowExact`: The graph and the messages say what the references say.

## Theorems

* `FlowGraph.map_reference_edges`: The references that become edges.
* `FlowGraph.missing?_eq`: If there is a block at the source, the message is about the target.
* `Analysis.filter_ofSession_diagnostics`: The findings of exploring are kept as they are.
* `Session.Anchored.exists_last`, `Session.Anchored.find?_target`: The blocks at both ends of a
  reference.
* `Session.Anchored.filter_unresolved`: The messages are about references without an edge.
* `analyzeImage_flow`: The control-flow graph of a finished analysis.
-/

namespace Disasm86

namespace FlowGraph

/-- Whether there are blocks at both ends of a reference. -/
def resolves (blocks : BlockStore) (r : Reference) : Bool :=
  (blocks.find? r.source).isSome && (blocks.find? r.target).isSome

/-- The message about a reference that has no block at its target. -/
def unresolvedAt (r : Reference) : Diagnostic :=
  ⟨r.target, .unresolvedTarget, missingMessage r r.target⟩

/-- A flow reference becomes an edge if there are blocks at both its ends. -/
theorem edge?_map_reference (blocks : BlockStore) (r : Reference) :
    (edge? blocks r).map (·.reference)
      = Option.guard (fun r => resolves blocks r && isFlow r) r := by
  unfold edge? Option.guard
  by_cases hflow : isFlow r
  · rw [if_pos hflow]
    cases hsource : blocks.find? r.source with
    | none => simp [resolves, hsource]
    | some source =>
        cases htarget : blocks.find? r.target with
        | none => simp [resolves, htarget]
        | some target => simp [resolves, hsource, htarget, hflow]
  · rw [if_neg hflow]
    simp [hflow]

/-- The references that become edges are those with blocks at both ends, in order. -/
theorem map_reference_edges (blocks : BlockStore) (refs : List Reference) :
    (refs.filterMap (edge? blocks)).map (·.reference)
      = (refs.filter isFlow).filter (resolves blocks) := by
  rw [List.map_filterMap, List.filter_filter, ← List.filterMap_eq_filter]
  exact List.filterMap_congr fun r _ => edge?_map_reference blocks r

/-- With a block at the source of every flow reference, the message is about the target. -/
theorem missing?_eq {blocks : BlockStore} {r : Reference}
    (h : isFlow r → (blocks.find? r.source).isSome) :
    missing? blocks r
      = (Option.guard (fun r => !resolves blocks r && isFlow r) r).map unresolvedAt := by
  unfold missing? Option.guard
  by_cases hflow : isFlow r
  · rw [if_pos hflow]
    rcases Option.isSome_iff_exists.mp (h hflow) with ⟨source, hsource⟩
    cases htarget : blocks.find? r.target with
    | none => simp [resolves, unresolvedAt, hsource, htarget, hflow]
    | some target => simp [resolves, hsource, htarget]
  · rw [if_neg hflow]
    simp [hflow]

/-- The messages are about the references that do not become edges, in order. -/
theorem filterMap_missing? {blocks : BlockStore} {refs : List Reference}
    (h : ∀ r ∈ refs, isFlow r → (blocks.find? r.source).isSome) :
    refs.filterMap (missing? blocks)
      = ((refs.filter isFlow).filter fun r => !resolves blocks r).map unresolvedAt := by
  rw [List.filter_filter, ← List.filterMap_eq_filter, List.map_filterMap]
  exact List.filterMap_congr fun r hr => missing?_eq (h r hr)

end FlowGraph

open FlowGraph

/-- The control-flow graph of an analysis says what the recorded references say, and the messages
    about unresolved targets say the rest. So every flow reference is either an edge or a message,
    and never both. -/
structure Analysis.FlowExact (a : Analysis) : Prop where
  /-- References with blocks at both ends are the edges, in order. -/
  edges : a.flow.edges.toList.map (·.reference)
    = (a.references.toList.filter isFlow).filter (resolves a.blocks)
  /-- The others are what the messages are about, in order. -/
  messages : (a.diagnostics.toList.filter fun d => d.code = .unresolvedTarget)
    = ((a.references.toList.filter isFlow).filter fun r => !resolves a.blocks r).map unresolvedAt
  /-- An edge leaves the last instruction of its block. -/
  leaves : ∀ edge ∈ a.flow.edges.toList, ∃ b i, a.blocks.get? edge.source = some b
    ∧ (a.blockInstructions b).getLast? = some (edge.reference.source, i)
  /-- It arrives at the start of a block, or at an error. -/
  arrives : ∀ edge ∈ a.flow.edges.toList, ∃ b, a.blocks.get? edge.target = some b
    ∧ b.contains edge.reference.target
    ∧ (b.start = edge.reference.target ∨ ∃ d ∈ a.diagnostics.toList,
        d.location = edge.reference.target ∧ d.severity = .error)
  /-- A message is located at a target, which is no source and has an error. -/
  unresolved : ∀ d ∈ a.diagnostics.toList, d.code = .unresolvedTarget →
    (∃ r ∈ a.references.toList, r.target = d.location)
      ∧ (∀ r ∈ a.references.toList, r.source ≠ d.location)
      ∧ ∃ d' ∈ a.diagnostics.toList, d'.location = d.location ∧ d'.severity = .error
  successors : ∀ b, a.flow.successors b
    = (a.flow.edges.toList.filter fun edge => edge.source = b).map (·.target)
  predecessors : ∀ b, a.flow.predecessors b
    = (a.flow.edges.toList.filter fun edge => edge.target = b).map (·.source)

/-- Behind the graph only the detection of procedures adds something. -/
theorem Analysis.ofSession_finds (s : Session) (buildProcedures : Bool) :
    Diagnostics.Finds [.inconsistentCall] (build s.blocks s.references s.diagnostics).2
      (ofSession s buildProcedures).diagnostics := by
  cases buildProcedures with
  | false => exact Diagnostics.Finds.refl _ _
  | true => exact ProcedureTable.detect_finds _ _ _ _ _

/-- What exploring has reported is still there in the end. -/
theorem Analysis.mem_ofSession_diagnostics (s : Session) (buildProcedures : Bool) {d : Diagnostic}
    (hd : d ∈ s.diagnostics.toList) : d ∈ (ofSession s buildProcedures).diagnostics.toList := by
  refine (ofSession_finds s buildProcedures).mem ?_
  rw [build_diagnostics]
  exact List.mem_append_left _ hd

/-- Diagnostics with the codes of exploring are those that exploring has reported. -/
theorem Analysis.filter_ofSession_diagnostics (s : Session) (buildProcedures : Bool)
    {code : DiagnosticCode} (h : code ∈ DiagnosticCode.ofExploring) :
    ((ofSession s buildProcedures).diagnostics.toList.filter fun d => d.code = code)
      = s.diagnostics.toList.filter fun d => d.code = code := by
  have hunresolved : code ∉ [DiagnosticCode.unresolvedTarget] := by
    revert h
    cases code <;> decide
  have hcall : code ∉ [DiagnosticCode.inconsistentCall] := by
    revert h
    cases code <;> decide
  rw [(ofSession_finds s buildProcedures).adds.filter_code hcall,
    (build_finds s.blocks s.references s.diagnostics).adds.filter_code hunresolved]

/-- Flow references have both ends. -/
theorem isSomewhere_of_isFlow {r : Reference} (h : isFlow r) :
    r.source.isSomewhere ∧ r.target.isSomewhere := by
  simp only [isFlow, Bool.and_eq_true] at h
  exact h.1

section Sessions

variable {image : Image} {context : DecodeContext} {s : Session}

namespace Session.Anchored

variable {r : Reference} {d : Diagnostic} {buildProcedures : Bool}

/-- There is a block at every source, and it ends there. -/
theorem exists_last (h : s.Anchored) (hlaid : LaidOut image context s)
    (hr : r ∈ s.references.toList) (hsource : r.source.isSomewhere) :
    ∃ id b i, s.blocks.find? r.source = some id ∧ s.blocks.get? id = some b
      ∧ (s.code.inRange b.start b.stop).getLast? = some (r.source, i) :=
  (h.leaves r (List.mem_append_left _ hr) hsource).getLast?_inRange hlaid

/-- So a block is found there. -/
theorem isSome_find?_source (h : s.Anchored) (hlaid : LaidOut image context s)
    (hr : r ∈ s.references.toList) (hsource : r.source.isSomewhere) :
    (s.blocks.find? r.source).isSome := by
  rcases h.exists_last hlaid hr hsource with ⟨id, b, i, hfind, -, -⟩
  rw [hfind]
  rfl

/-- The block at a target starts there, and without one an error has been reported. -/
theorem find?_target (h : s.Anchored) (hlaid : LaidOut image context s)
    (hr : r ∈ s.references.toList) (htarget : r.target.isSomewhere) :
    (∃ id b, s.blocks.find? r.target = some id ∧ s.blocks.get? id = some b ∧ b.start = r.target)
      ∨ ∃ d ∈ s.diagnostics.toList, d.location = r.target ∧ d.severity = .error := by
  rcases h.arrives r hr htarget with ⟨id, b, hget, hstart⟩ | ⟨d, hd, hlocation, -, hseverity⟩
  · have hin := Block.contains_start (hlaid.wellFormed.positive hget)
    rw [hstart] at hin
    exact Or.inl ⟨id, b, hlaid.wellFormed.find?_eq_some_iff.mpr ⟨b, hget, hin⟩, hget, hstart⟩
  · exact Or.inr ⟨d, hd, hlocation, hseverity⟩

/-- The messages about unresolved targets all come from building the graph. -/
theorem filter_unresolved (h : s.Anchored) (hlaid : LaidOut image context s)
    (hadds : Diagnostics.Adds DiagnosticCode.ofExploring .empty s.diagnostics) :
    ((Analysis.ofSession s buildProcedures).diagnostics.toList.filter
      fun d => d.code = .unresolvedTarget)
        = ((s.references.toList.filter isFlow).filter
            fun r => !resolves s.blocks r).map unresolvedAt := by
  have hnone : (s.diagnostics.toList.filter fun d => d.code = .unresolvedTarget) = [] :=
    hadds.filter_code (by decide)
  rw [(Analysis.ofSession_finds s buildProcedures).adds.filter_code (by decide), build_diagnostics,
    List.filter_append, hnone, filterMap_missing? fun r hr hflow =>
      h.isSome_find?_source hlaid hr (isSomewhere_of_isFlow hflow).1]
  -- All that is left has the code that is asked for.
  refine (List.nil_append _).trans (List.filter_eq_self.mpr fun d hd => ?_)
  rcases List.mem_map.mp hd with ⟨r, -, rfl⟩
  rfl

/-- A message is about a recorded reference that has no block at its target. -/
theorem exists_of_unresolved (h : s.Anchored) (hlaid : LaidOut image context s)
    (hadds : Diagnostics.Adds DiagnosticCode.ofExploring .empty s.diagnostics)
    (hd : d ∈ (Analysis.ofSession s buildProcedures).diagnostics.toList)
    (hcode : d.code = .unresolvedTarget) :
    ∃ r ∈ s.references.toList, r.target = d.location ∧ r.target.isSomewhere
      ∧ s.blocks.find? r.target = none := by
  have hmem : d ∈ (Analysis.ofSession s buildProcedures).diagnostics.toList.filter
      fun d => d.code = .unresolvedTarget := List.mem_filter.mpr ⟨hd, decide_eq_true hcode⟩
  rw [h.filter_unresolved hlaid hadds] at hmem
  rcases List.mem_map.mp hmem with ⟨r, hr, rfl⟩
  rcases List.mem_filter.mp hr with ⟨hr, hresolves⟩
  rcases List.mem_filter.mp hr with ⟨hr, hflow⟩
  rcases isSomewhere_of_isFlow hflow with ⟨hsource, htarget⟩
  refine ⟨r, hr, rfl, htarget, ?_⟩
  simpa [resolves, h.isSome_find?_source hlaid hr hsource] using hresolves

end Session.Anchored

/-- An edge stands for a recorded reference with blocks at both ends. -/
theorem FlowGraph.of_mem_edges_build {blocks : BlockStore} {log : ReferenceLog}
    {ds : Diagnostics} {edge : FlowEdge} (h : edge ∈ (build blocks log ds).1.edges.toList) :
    edge.reference ∈ log.toList ∧ isFlow edge.reference
      ∧ blocks.find? edge.reference.source = some edge.source
      ∧ blocks.find? edge.reference.target = some edge.target := by
  rw [build_edges] at h
  rcases List.mem_filterMap.mp h with ⟨r, hr, hedge⟩
  rcases edge?_eq_some_iff.mp hedge with ⟨hflow, hsource, htarget, rfl⟩
  exact ⟨hr, hflow, hsource, htarget⟩

/-- The graph of a session is exact if its references leave the ends of blocks and arrive at their
    starts. -/
theorem Session.Anchored.flowExact (h : s.Anchored) (hlaid : LaidOut image context s)
    (hadds : Diagnostics.Adds DiagnosticCode.ofExploring .empty s.diagnostics)
    (buildProcedures : Bool) : (Analysis.ofSession s buildProcedures).FlowExact := by
  have hindexed := wellIndexed_build s.blocks s.references s.diagnostics
  have hkept : ∀ {d}, d ∈ s.diagnostics.toList →
      d ∈ (Analysis.ofSession s buildProcedures).diagnostics.toList :=
    Analysis.mem_ofSession_diagnostics s buildProcedures
  refine ⟨?_, h.filter_unresolved hlaid hadds, ?_, ?_, ?_, ?_, ?_⟩
  · exact (congrArg _ (build_edges _ _ _)).trans (map_reference_edges _ _)
  · intro edge hmem
    rcases of_mem_edges_build hmem with ⟨hr, hflow, hfrom, -⟩
    rcases h.exists_last hlaid hr (isSomewhere_of_isFlow hflow).1
      with ⟨id, b, i, hfind, hget, hlast⟩
    -- The block of the edge is the one that ends at the source.
    rw [hfrom, Option.some.injEq] at hfind
    exact ⟨b, i, by rw [hfind]; exact hget, hlast⟩
  · intro edge hmem
    rcases of_mem_edges_build hmem with ⟨hr, hflow, -, hto⟩
    rcases hlaid.wellFormed.find?_eq_some_iff.mp hto with ⟨b, hget, hin⟩
    refine ⟨b, hget, hin, ?_⟩
    rcases h.find?_target hlaid hr (isSomewhere_of_isFlow hflow).2
      with ⟨id, c, hfind, hc, hstart⟩ | ⟨d, hd, hwhere⟩
    · -- The block that starts at the target is the one of the edge.
      rw [hto, Option.some.injEq] at hfind
      rw [← hfind, hget, Option.some.injEq] at hc
      exact Or.inl (by rw [hc]; exact hstart)
    · exact Or.inr ⟨d, hkept hd, hwhere⟩
  · intro d hd hcode
    rcases h.exists_of_unresolved hlaid hadds hd hcode with ⟨r, hr, hlocation, htarget, hnone⟩
    rw [← hlocation]
    refine ⟨⟨r, hr, rfl⟩, fun r' hr' heq => ?_, ?_⟩
    · -- There is a block at every source, and none at the target.
      have hsome := h.isSome_find?_source hlaid hr' (by rw [heq]; exact htarget)
      rw [heq, hnone] at hsome
      cases hsome
    · rcases h.find?_target hlaid hr htarget with ⟨id, b, hfind, -, -⟩ | ⟨d', hd', hwhere⟩
      · rw [hnone] at hfind
        cases hfind
      · exact ⟨d', hkept hd', hwhere⟩
  · intro b
    refine congrArg (List.map (·.target)) ((hindexed.bySource.select_eq b).trans ?_)
    simp only [Option.some.injEq]
    rfl
  · intro b
    refine congrArg (List.map (·.source)) ((hindexed.byTarget.select_eq b).trans ?_)
    simp only [Option.some.injEq]
    rfl

/-- The control-flow graph of every finished analysis says what its references say. Exploring
    anchors references at the ends and starts of blocks, and building the graph loses none. -/
theorem analyzeImage_flow {entries : List Address} {options : AnalysisOptions}
    {cancelled : Nat → Bool} {analysis : Analysis}
    (hlimit : 1 ≤ options.limits.blockInstructions)
    (h : analyzeImage image context entries options cancelled = .ok analysis) :
    analysis.FlowExact := by
  rcases exists_session_of_analyzeImage hlimit h with ⟨s, hexplored, -, rfl⟩
  rcases hexplored.anchored with ⟨hlaid, hanchored⟩
  exact hanchored.flowExact hlaid hexplored.finds.adds options.buildProcedures

end Sessions

/-- A branch back into its own block, and a branch out of the image behind it. -/
def branches : Image := Image.ofBytes #[0x90, 0x90, 0x74, 0xFD, 0x74, 0x10, 0xC3] 0

/-- Four references become edges, one of which comes from a cut, and one becomes a
    message. -/
theorem analyzeImage_flow_branches :
    ∃ analysis, analyzeImage branches {} [] ⟨{}, false⟩ (fun _ => false) = .ok analysis
      ∧ analysis.flow.edges.toList.map (fun edge => (edge.source, edge.target))
        = [(0, 1), (1, 1), (1, 2), (2, 3)]
      ∧ analysis.diagnostics.toList.map (fun d => (d.location, d.code))
        = [(⟨0, 0x16⟩, .outOfImage), (⟨0, 0x16⟩, .unresolvedTarget)]
      ∧ analysis.FlowExact := by
  have hfound : (analyzeImage branches {} [] ⟨{}, false⟩ (fun _ => false)).toOption.any
      (fun analysis => analysis.flow.edges.toList.map (fun edge => (edge.source, edge.target))
          = [(0, 1), (1, 1), (1, 2), (2, 3)]
        ∧ analysis.diagnostics.toList.map (fun d => (d.location, d.code))
          = [(⟨0, 0x16⟩, .outOfImage), (⟨0, 0x16⟩, .unresolvedTarget)]) = true := by
    decide +kernel
  rcases exists_ok_of_any hfound with ⟨analysis, h, hany⟩
  rcases of_decide_eq_true hany with ⟨hedges, hdiagnostics⟩
  exact ⟨analysis, h, hedges, hdiagnostics, analyzeImage_flow (by decide) h⟩

end Disasm86
