import Disasm86.Proofs.History
import Disasm86.Proofs.JumpTables

/-!
# Who Calls Whom

The call graph goes through the recorded references, and a call gets one edge for each procedure
that has the block it stands in. `RowOf` says which edges a single reference should have, and in
which order, and the graph is made of these rows one behind the other.

The neighbours of a procedure are read off the edges, each once. They are listed in the order in
which their first edge comes up, which is the order of positions in the list of edges, so there
is nothing to say about the edges that follow.

In the graph of a finished analysis no call to a procedure is left out. A call leaves an indexed
instruction, the instruction lies in a block, and every block belongs to a procedure. If blocks
may not have instructions this does not apply; but then there are no blocks, and no procedures.

## Main definitions

* `CallGraph.RowOf`: The edges that a reference should have.
* `CallGraph.firstEdge`: Where the first edge between two procedures stands.
* `CallGraph.ListsNeighbours`: Callers and callees are listed once, in order of their first edge.

## Theorems

* `ProcedureTable.pairwise_owners`: Owners are listed by number.
* `CallGraph.edgesOf_rowOf`, `CallGraph.build_rows`: References have the edges that they should
  have, row after row.
* `pairwise_firstOccurrences`: First occurrences are listed in the order of their positions.
* `CallGraph.listsNeighbours`: Callers and callees of any graph.
* `exists_edge_of_call`: No call to a procedure is left out of a finished analysis.
* `CallGraph.calls_exact`: The edges of a call graph, its neighbours, and the calls of an analysis.
-/

namespace Disasm86

/-- The numbers of the procedures that have a block ascend. -/
theorem ProcedureTable.pairwise_owners (t : ProcedureTable) (block : Nat) :
    (t.owners block).Pairwise (· < ·) := by
  unfold owners
  rw [List.pairwise_filterMap]
  refine List.pairwise_iff_getElem.mpr fun i j hi hj hlt n hn m hm => ?_
  simp only [List.getElem_zipIdx, Nat.zero_add, Option.ite_none_right_eq_some,
    Option.some.injEq] at hn hm
  omega

section FirstOccurrences

/-- Leaving out repetitions keeps the members. -/
theorem mem_firstOccurrences {xs : List Nat} {a : Nat} : a ∈ firstOccurrences xs ↔ a ∈ xs := by
  induction xs with
  | nil => exact Iff.rfl
  | cons x xs ih =>
      simp only [firstOccurrences, List.mem_cons, List.mem_filter, ih, decide_eq_true_eq]
      by_cases ha : a = x
      · simp [ha]
      · simp [ha]

/-- What occurs first is kept, and once only. -/
theorem nodup_firstOccurrences (xs : List Nat) : (firstOccurrences xs).Nodup := by
  induction xs with
  | nil => exact List.nodup_nil
  | cons x xs ih =>
      refine List.nodup_cons.mpr ⟨fun hmem => ?_, ih.filter _⟩
      exact of_decide_eq_true (List.mem_filter.mp hmem).2 rfl

/-- What is found in a list is listed in the order in which it is found first. -/
theorem pairwise_firstOccurrences {α : Type} (f : α → Nat) (p : α → Bool) (xs : List α) :
    (firstOccurrences ((xs.filter p).map f)).Pairwise fun a b =>
      xs.findIdx (fun x => f x = a && p x) < xs.findIdx (fun x => f x = b && p x) := by
  induction xs with
  | nil => exact List.Pairwise.nil
  | cons x xs ih =>
      by_cases hp : p x
      · rw [List.filter_cons_of_pos hp, List.map_cons, firstOccurrences]
        -- The first is found at once, and every other one later than before by one.
        have hlater : ∀ {a}, a ≠ f x → (x :: xs).findIdx (fun x => f x = a && p x)
            = xs.findIdx (fun x => f x = a && p x) + 1 := by
          intro a ha
          rw [List.findIdx_cons]
          simp [ha.symm]
        refine List.pairwise_cons.mpr ⟨fun b hb => ?_, ?_⟩
        · have hb := of_decide_eq_true (List.mem_filter.mp hb).2
          have hfirst : (x :: xs).findIdx (fun y => f y = f x && p y) = 0 := by
            rw [List.findIdx_cons]
            simp [hp]
          rw [hfirst, hlater hb]
          omega
        · refine (ih.filter _).imp_of_mem fun ha hb hlt => ?_
          rw [hlater (of_decide_eq_true (List.mem_filter.mp ha).2),
            hlater (of_decide_eq_true (List.mem_filter.mp hb).2)]
          omega
      · rw [List.filter_cons_of_neg hp]
        refine ih.imp fun {a b} hlt => ?_
        simp only [List.findIdx_cons, hp, Bool.and_false, cond_false]
        omega

end FirstOccurrences

namespace CallGraph

/-- The edges that a reference should have. If it is a call, there is one for each procedure that
    has the block of the call, by ascending number, and all lead to the procedure at the
    target. -/
structure RowOf (t : ProcedureTable) (blocks : BlockStore) (r : Reference) (row : List CallEdge) :
    Prop where
  ascending : row.Pairwise fun e e' => e.caller < e'.caller
  mem_iff : ∀ e, e ∈ row ↔ e.reference = r ∧ r.kind.isCall
    ∧ (∃ q, t.get? e.callee = some q ∧ q.entry = r.target)
    ∧ ∃ p site, t.get? e.caller = some p ∧ p.blocks.contains site
      ∧ blocks.find? r.source = some site

/-- Where the first edge from one procedure to another stands among the edges. -/
def firstEdge (g : CallGraph) (p q : Nat) : Nat :=
  g.edges.findIdx fun e => e.caller = p && e.callee = q

/-- Callers and callees are those at the ends of edges. Each is listed once, in the order of the
    first edges. -/
structure ListsNeighbours (g : CallGraph) : Prop where
  mem_callers_iff : ∀ p q, p ∈ g.callers q ↔ ∃ e ∈ g.edges, e.caller = p ∧ e.callee = q
  mem_callees_iff : ∀ p q, q ∈ g.callees p ↔ ∃ e ∈ g.edges, e.caller = p ∧ e.callee = q
  callers_nodup : ∀ q, (g.callers q).Nodup
  callees_nodup : ∀ p, (g.callees p).Nodup
  callers_ordered : ∀ q, (g.callers q).Pairwise fun p p' => g.firstEdge p q < g.firstEdge p' q
  callees_ordered : ∀ p, (g.callees p).Pairwise fun q q' => g.firstEdge p q < g.firstEdge p q'
  converse : ∀ p q, p ∈ g.callers q ↔ q ∈ g.callees p

/-- So much holds of the edges of any graph. -/
theorem listsNeighbours (g : CallGraph) : g.ListsNeighbours := by
  have hcallers : ∀ p q, p ∈ g.callers q ↔ ∃ e ∈ g.edges, e.caller = p ∧ e.callee = q := by
    intro p q
    simp only [callers, mem_firstOccurrences, List.mem_map, List.mem_filter, decide_eq_true_eq]
    exact exists_congr fun e => by rw [and_assoc, and_comm (a := e.callee = q)]
  have hcallees : ∀ p q, q ∈ g.callees p ↔ ∃ e ∈ g.edges, e.caller = p ∧ e.callee = q := by
    intro p q
    simp only [callees, mem_firstOccurrences, List.mem_map, List.mem_filter, decide_eq_true_eq]
    exact exists_congr fun e => by rw [and_assoc]
  refine ⟨hcallers, hcallees, fun q => nodup_firstOccurrences _, fun p => nodup_firstOccurrences _,
    fun q => pairwise_firstOccurrences _ _ _, fun p => ?_, fun p q => ?_⟩
  · -- Callees are filtered by the caller, so the two tests stand the other way round.
    have hcomm : ∀ q, g.firstEdge p q = g.edges.findIdx fun e => e.callee = q && e.caller = p := by
      intro q
      unfold firstEdge
      simp only [Bool.and_comm]
    simp only [hcomm]
    exact pairwise_firstOccurrences _ _ _
  · rw [hcallers, hcallees]

/-- A reference has the edges that it should have, if the table is indexed by entry. -/
theorem edgesOf_rowOf {t : ProcedureTable}
    (ht : ∀ {a n}, t.at? a = some n ↔ ∃ p, t.get? n = some p ∧ p.entry = a)
    (blocks : BlockStore) (r : Reference) : RowOf t blocks r (edgesOf t blocks r) := by
  unfold edgesOf
  by_cases hcall : r.kind.isCall
  · rw [if_pos hcall]
    -- A call needs a procedure at its target and a block at its source.
    cases hat : t.at? r.target with
    | none =>
        refine ⟨List.Pairwise.nil, fun e => iff_of_false List.not_mem_nil ?_⟩
        rintro ⟨-, -, hcallee, -⟩
        rw [ht.mpr hcallee] at hat
        cases hat
    | some callee =>
        cases hsite : blocks.find? r.source with
        | none =>
            refine ⟨List.Pairwise.nil, fun e => iff_of_false List.not_mem_nil ?_⟩
            rintro ⟨-, -, -, p, site, -, -, hfind⟩
            rw [hsite] at hfind
            cases hfind
        | some site =>
            refine ⟨List.pairwise_map.mpr (t.pairwise_owners site), fun e => ?_⟩
            simp only [List.mem_map, ProcedureTable.mem_owners_iff]
            constructor
            · rintro ⟨caller, ⟨p, hp, hin⟩, rfl⟩
              exact ⟨rfl, hcall, ht.mp hat, p, site, hp, hin, hsite⟩
            · rintro ⟨hreference, -, hcallee, p, site', hp, hin, hfind⟩
              rw [ht.mpr hcallee, Option.some.injEq] at hat
              rw [hsite, Option.some.injEq] at hfind
              rw [← hfind] at hin
              refine ⟨e.caller, ⟨p, hp, hin⟩, ?_⟩
              rw [← hat, ← hreference]
  · rw [if_neg hcall]
    exact ⟨List.Pairwise.nil, fun e => by simp [hcall]⟩

/-- The edges of a graph are the rows of the references, one behind the other. -/
theorem build_rows {t : ProcedureTable}
    (ht : ∀ {a n}, t.at? a = some n ↔ ∃ p, t.get? n = some p ∧ p.entry = a)
    (blocks : BlockStore) (log : ReferenceLog) :
    ∃ rows, (build t blocks log).edges = rows.flatten
      ∧ List.Forall₂ (RowOf t blocks) log.toList rows := by
  refine ⟨log.toList.map (edgesOf t blocks), List.flatMap_def .., ?_⟩
  rw [List.forall₂_map_right_iff]
  exact List.forall₂_same.mpr fun r _ => edgesOf_rowOf ht blocks r

end CallGraph

section Analyses

variable {image : Image} {context : DecodeContext} {entries : List Address}
  {options : AnalysisOptions} {cancelled : Nat → Bool} {analysis : Analysis}

/-- If blocks may not have instructions, a finished analysis has no blocks. -/
theorem blocks_eq_empty_of_analyzeImage (hlimit : options.limits.blockInstructions = 0)
    (h : analyzeImage image context entries options cancelled = .ok analysis) :
    analysis.blocks = .empty := by
  rcases analyzeImage_eq_ok h with ⟨seeded, s, hseed, hrun, rfl⟩
  have hblank : seeded.Blank :=
    seedEntries_keeps (fun s entry hs _ => hs.enqueue (by simp [Reference.isIndexed]))
      Session.blank_fresh hseed
  exact (run_blank (e := ⟨image, context, options.limits⟩) hlimit hblank hrun).blocks

/-- A recorded call stands in a block: it leaves an indexed instruction. -/
theorem Owned.exists_site {s : Session} {r : Reference} (hs : Owned s)
    (hexplored : Explored image context (fun limits => 1 ≤ limits.blockInstructions) s)
    (hr : r ∈ s.references.toList) (hcall : r.kind.isCall) :
    ∃ site b, s.blocks.get? site = some b ∧ b.contains r.source := by
  have hmention : r ∈ s.mentions := List.mem_append_left _ hr
  have hsource : r.source.isSomewhere := by
    by_cases hsome : r.source.isSomewhere
    · exact hsome
    · rw [hs.rooted hmention hsome] at hcall
      cases hcall
  rcases hexplored.balanced.sourced r hmention hsource with ⟨i, hi⟩
  have hlaid := hexplored.laidOut
  refine hlaid.enclosed ?_
  rw [hlaid.marked hi (hlaid.spans_self hi)]

/-- No call to a procedure is left out of the graph of a finished analysis. -/
theorem exists_edge_of_call (hprocedures : options.buildProcedures = true)
    (h : analyzeImage image context entries options cancelled = .ok analysis) {r : Reference}
    (hr : r ∈ analysis.references.toList) (hcall : r.kind.isCall)
    (hcallee : ∃ n p, analysis.procedures.get? n = some p ∧ p.entry = r.target) :
    ∃ e ∈ analysis.calls.edges, e.reference = r := by
  rcases hcallee with ⟨n, q, hq, hentry⟩
  by_cases hlimit : 1 ≤ options.limits.blockInstructions
  · rcases exists_explored_owned hlimit h with ⟨s, hexplored, hs, rfl⟩
    rw [hprocedures] at hq ⊢
    have hlaid := hexplored.laidOut
    -- The call stands in a block, and the block belongs to a procedure.
    rcases hs.exists_site hexplored hr hcall with ⟨site, b, hget, hin⟩
    rcases (hs.exists_owner hlaid (BlockStore.lt_size_of_get? hget)).1 with ⟨caller, howner⟩
    rcases ProcedureTable.mem_owners_iff.mp howner with ⟨p, hp, hblock⟩
    have hrow := CallGraph.edgesOf_rowOf (t := (Analysis.ofSession s true).procedures)
      ProcedureTable.derived_detect.at?_iff s.blocks r
    refine ⟨⟨caller, n, r⟩, List.mem_flatMap.mpr ⟨r, hr, (hrow.mem_iff _).mpr ?_⟩, rfl⟩
    exact ⟨rfl, hcall, ⟨q, hq, hentry⟩, p, site, hp, hblock,
      hlaid.wellFormed.find?_eq_some_iff.mpr ⟨b, hget, hin⟩⟩
  · -- There is no block at which the procedure could start.
    have hempty := blocks_eq_empty_of_analyzeImage (by omega) h
    rcases analyzeImage_eq_ok h with ⟨seeded, s, -, -, rfl⟩
    rw [hprocedures] at hq
    rcases ProcedureTable.derived_detect.made hq with ⟨entryBlock, hstart, -⟩
    rw [show s.blocks = .empty from hempty] at hstart
    rcases BlockStore.wellFormed_empty.startingAt?_iff.mp hstart with ⟨b, hget, -⟩
    simp [BlockStore.empty, BlockStore.get?] at hget

end Analyses

/-- The edges of a call graph are the rows of its references, one behind the other, whatever the
    store and whichever detection has left the table. The site of a call is the block that has its
    source, for the blocks that any history leaves. Callers and callees are listed once, in the
    order of their first edge. And no call to a procedure is left out of a finished analysis. -/
theorem CallGraph.calls_exact :
    (∀ (found blocks : BlockStore) (roots log : ReferenceLog) (code : CodeIndex) (flow : FlowGraph)
        (raised : Diagnostics),
      let t := (ProcedureTable.detect found roots code flow raised).1
      ∃ rows, (build t blocks log).edges = rows.flatten
        ∧ List.Forall₂ (RowOf t blocks) log.toList rows)
      ∧ (∀ updates : List BlockStore.Update,
        (∀ b, .add b ∈ updates → b.start.offset.toInt + b.length.toInt < 0x80000000) →
        ∀ a site, (BlockStore.ofHistory updates).find? a = some site
          ↔ ∃ b, (BlockStore.ofHistory updates).get? site = some b ∧ b.contains a)
      ∧ (∀ g : CallGraph, g.ListsNeighbours)
      ∧ ∀ (image : Image) (context : DecodeContext) (entries : List Address)
        (options : AnalysisOptions) (cancelled : Nat → Bool) (analysis : Analysis),
        options.buildProcedures = true →
        analyzeImage image context entries options cancelled = .ok analysis →
        analysis.calls = build analysis.procedures analysis.blocks analysis.references
          ∧ ∀ r ∈ analysis.references.toList, r.kind.isCall →
            (∃ n p, analysis.procedures.get? n = some p ∧ p.entry = r.target) →
            ∃ e ∈ analysis.calls.edges, e.reference = r := by
  refine ⟨fun found blocks roots log code flow raised => ?_, fun updates hend a site => ?_,
    listsNeighbours, fun image context entries options cancelled analysis hprocedures h => ?_⟩
  -- A table that has been detected is indexed by the entries of its procedures.
  · exact build_rows ProcedureTable.derived_detect.at?_iff blocks log
  · exact (BlockStore.wellFormed_ofHistory hend).find?_eq_some_iff
  · refine ⟨?_, fun r hr hcall hcallee => exists_edge_of_call hprocedures h hr hcall hcallee⟩
    rcases analyzeImage_eq_ok h with ⟨seeded, s, -, -, rfl⟩
    rw [hprocedures]
    rfl

/-- The call of `callAhead` has an edge to the procedure behind it. -/
theorem CallGraph.calls_exact_callAhead :
    let call : Reference := ⟨.transfer .nearCall, ⟨0, 0⟩, ⟨0, 4⟩, .nowhere⟩
    (∃ analysis, analyzeImage callAhead {} [] {} (fun _ => false) = .ok analysis
      ∧ call ∈ analysis.references.toList
      ∧ (∃ n p, analysis.procedures.get? n = some p ∧ p.entry = ⟨0, 4⟩)
      ∧ ∃ e ∈ analysis.calls.edges, e.reference = call)
      ∧ ∀ a site, (BlockStore.ofHistory BlockStore.mixed).find? a = some site
        ↔ ∃ b, (BlockStore.ofHistory BlockStore.mixed).get? site = some b ∧ b.contains a := by
  intro call
  rcases calls_exact with ⟨-, hfind, -, hcalls⟩
  refine ⟨?_, hfind BlockStore.mixed (by simp [BlockStore.mixed])⟩
  have hfound : (analyzeImage callAhead {} [] {} (fun _ => false)).toOption.any (fun analysis =>
      call ∈ analysis.references.toList ∧ (analysis.blocks.startingAt? ⟨0, 4⟩).isSome) = true := by
    decide +kernel
  rcases exists_ok_of_any hfound with ⟨analysis, h, hany⟩
  rcases of_decide_eq_true hany with ⟨hmem, hsome⟩
  rcases Option.isSome_iff_exists.mp hsome with ⟨entryBlock, hstart⟩
  -- A block starts at the target, so detection has made a procedure there.
  have hcallee : ∃ n p, analysis.procedures.get? n = some p ∧ p.entry = ⟨0, 4⟩ := by
    rcases analyzeImage_eq_ok h with ⟨seeded, s, -, -, rfl⟩
    rcases ProcedureTable.exists_procedure s.code
      (FlowGraph.build s.blocks s.references s.diagnostics).1
      (FlowGraph.build s.blocks s.references s.diagnostics).2 hmem rfl hstart with ⟨n, hn⟩
    exact ⟨n, _, hn, rfl⟩
  exact ⟨analysis, h, hmem, hcallee,
    (hcalls _ _ _ _ _ _ rfl h).2 call hmem rfl hcallee⟩

end Disasm86
