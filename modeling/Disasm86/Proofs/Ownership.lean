import Disasm86.Listing.Csv
import Disasm86.Proofs.Accounting
import Disasm86.Proofs.History
import Disasm86.Proofs.Labels
import Disasm86.Proofs.Procedures

/-!
# Every Block Belongs to a Procedure

A block comes into being because a reference leads to its start, or because a block was cut
there. So there is a way to it, from an entry point or from the target of a call, that goes
from block to block over recorded references. If procedures are wanted, one starts where that
way starts, and the block is among those that it reaches.

The way must survive every later cut. `Reached` therefore speaks of addresses and not of
blocks: a reference goes on from the block that holds its source, whichever that is, and
arrives at an address. When a block is cut, its first part keeps the start, and a reference
that leaves the second part can still be taken, because cutting records a reference from the
last instruction in front of the cut to the cut. That is `Reached.cut`, and nothing else in
the argument looks at a cut.

A way can only start at a call or at an entry point. Following references makes none without
a source, and the sources of all others lie in blocks, so only entry points have no source;
`Owned` keeps that beside the ways.

## Main definitions

* `Reached`: An address that recorded references lead to.
* `Owned`: All blocks of a session are reached.

## Theorems

* `Reached.mono`, `Reached.cut`: Ways stay when blocks are added or cut.
* `Visited.reached`: A visit leads to all blocks that it makes.
* `Followed.owned`: Following a reference keeps all blocks reached.
* `Reached.exists_path`: A way over references is a path of the graph.
* `Analysis.ownerName_ne_empty`: The name of an owner in a table.
* `analyzeImage_owned`: Every block of a finished analysis belongs to a procedure.
-/

namespace Disasm86

/-- An address that recorded references lead to, beginning with a call or an entry point and
    going on from the block that holds the source of the next. -/
inductive Reached (blocks : BlockStore) (refs : List Reference) : Address → Prop
  | root {r : Reference} (hr : r ∈ refs) (hroot : ProcedureTable.isRoot r) :
      Reached blocks refs r.target
  | flow {r : Reference} {id : Nat} {b : Block} (hr : r ∈ refs) (hflow : FlowGraph.isFlow r)
      (hget : blocks.get? id = some b) (hin : b.contains r.source)
      (hb : Reached blocks refs b.start) : Reached blocks refs r.target

namespace Reached

variable {blocks blocks' : BlockStore} {refs refs' : List Reference} {a mid last : Address}
  {id : Nat} {whole : Block}

/-- More blocks and more references block no way. -/
theorem mono (h : Reached blocks refs a)
    (hblocks : ∀ {id b}, blocks.get? id = some b → blocks'.get? id = some b)
    (hrefs : ∀ {r}, r ∈ refs → r ∈ refs') : Reached blocks' refs' a := by
  induction h with
  | root hr hroot => exact .root (hrefs hr) hroot
  | flow hr hflow hget hin _ ih => exact .flow (hrefs hr) hflow (hblocks hget) hin ih

/-- Where a block has been cut, the way goes on from its first part into its second. -/
theorem behind_cut (hget : blocks.get? id = some whole) (hin : whole.contains mid)
    (hne : whole.start ≠ mid) (hlast : whole.contains last)
    (hbefore : last.offset.toInt < mid.offset.toInt)
    (hmem : (⟨.fallThrough, last, mid, .nowhere⟩ : Reference) ∈ refs)
    (hcut : FlowGraph.isFlow ⟨.fallThrough, last, mid, .nowhere⟩)
    (h : Reached (blocks.cut id whole mid) refs whole.start) :
    Reached (blocks.cut id whole mid) refs mid :=
  .flow hmem hcut (BlockStore.get?_cut_head hget)
    ((Block.contains_headBefore hin hne).mpr ⟨hlast, hbefore⟩) h

/-- Cutting a block blocks no way. -/
theorem cut (h : Reached blocks refs a) (hget : blocks.get? id = some whole)
    (hin : whole.contains mid) (hne : whole.start ≠ mid) (hlast : whole.contains last)
    (hbefore : last.offset.toInt < mid.offset.toInt) (hrefs : ∀ {r}, r ∈ refs → r ∈ refs')
    (hmem : (⟨.fallThrough, last, mid, .nowhere⟩ : Reference) ∈ refs')
    (hcut : FlowGraph.isFlow ⟨.fallThrough, last, mid, .nowhere⟩) :
    Reached (blocks.cut id whole mid) refs' a := by
  induction h with
  | root hr hroot => exact .root (hrefs hr) hroot
  | @flow r k b hr hflow hgetb hinb hb ih =>
      rcases BlockStore.exists_contains_cut hget hin hne hgetb hinb with ⟨k', b', hb', hin', hstart⟩
      refine .flow (hrefs hr) hflow hb' hin' ?_
      -- The source may have come into the second part, which is reached from the first.
      rcases hstart with hstart | ⟨rfl, hstart⟩
      · rw [hstart]
        exact ih
      · rw [hstart]
        exact behind_cut hget hin hne hlast hbefore hmem hcut ih

end Reached

section Logs

variable {s s' : Session} {r r' : Reference}

/-- The log only grows. -/
theorem Session.mem_record_of_mem (r : Reference) (h : r' ∈ s.references.toList) :
    r' ∈ (s.record r).references.toList := by
  unfold record
  split
  · simp only [ReferenceLog.push, ReferenceLog.toList, Array.toList_push, List.mem_append]
    exact Or.inl h
  · exact h

/-- What is recorded is in the log, if it has a known end. -/
theorem Session.mem_record_self (h : r.isAnchored) : r ∈ (s.record r).references.toList := by
  unfold record
  rw [if_pos h]
  simp [ReferenceLog.push, ReferenceLog.toList]

theorem Session.mem_mentions_record (h : r' ∈ (s.record r).mentions) :
    r' = r ∨ r' ∈ s.mentions := by
  by_cases hends : r.isAnchored
  · exact List.mem_cons.mp ((s.mentions_record hends).mem_iff.mp h)
  · rw [s.mentions_record_nowhere hends] at h
    exact Or.inr h

/-- Emitting takes nothing out of the log. -/
theorem Session.mem_emit_of_mem (a : Address) (i : Instruction) (t : Transfer)
    (h : r ∈ s.references.toList) : r ∈ (s.emit a i t).references.toList := by
  rw [emit_eq_foldl]
  induction emission a i t generalizing s with
  | nil => exact h
  | cons n notes ih =>
      refine ih ?_
      cases n with
      | queued r' => exact h
      | recorded r' => exact s.mem_record_of_mem r' h
      | reported location code message => exact h

/-- A visit takes nothing out of the log. -/
theorem Visited.mem_of_mem {e : Explorer} (hv : Visited e s r s')
    (h : r' ∈ s.references.toList) : r' ∈ s'.references.toList := by
  have htake : ∀ is, (s.takeRun r.target is).references = s.references := by
    intro is
    rw [Session.takeRun_eq]
  cases hv with
  | misdirected code what h' => exact h
  | known id h' => exact h
  | cut id whole j last i hget hin hj hne hi hnext hlast straight =>
      exact Session.mem_record_of_mem _ h
  | stuck code message h' => exact h
  | decoded is i kind s' fresh straight hlen hending =>
      simp only [Session.close_stores]
      -- Recording, queueing and reporting leave the log as it is or make it longer.
      cases hending with
      | ranOn ht =>
          rw [Session.enqueue, htake]
          exact h
      | brokeOff ht code message hreport =>
          rw [Session.report, htake]
          exact h
      | transferred t ht => exact Session.mem_emit_of_mem _ _ _ (by rw [htake]; exact h)

end Logs

/-- All blocks of a session are reached, and only entry points have no source. The first alone is
    not kept by a step: that a new block is reached uses that its reference is an entry point or
    leaves a block. -/
structure Owned (s : Session) : Prop where
  rooted : ∀ {r}, r ∈ s.mentions → ¬ r.source.isSomewhere → r.kind = .entry
  reached : ∀ {id b}, s.blocks.get? id = some b → Reached s.blocks s.references.toList b.start

section Steps

variable {e : Explorer} {s s' : Session} {r : Reference}

/-- A reference that may be followed to a block: it starts a way, or it leaves a block. -/
theorem isRoot_or_isFlow (htarget : r.target.isSomewhere)
    (hrooted : ¬ r.source.isSomewhere → r.kind = .entry) :
    ProcedureTable.isRoot r ∨ FlowGraph.isFlow r ∧ r.source.isSomewhere := by
  unfold ProcedureTable.isRoot FlowGraph.isFlow
  -- A reference without a source is an entry point, and one with a source is a call or not.
  by_cases hsource : r.source.isSomewhere
  · cases hcall : r.kind.isCall with
    | true => exact Or.inl (by simp [htarget])
    | false => exact Or.inr ⟨by simp [hsource, htarget], hsource⟩
  · exact Or.inl (by simp [hrooted hsource, htarget])

/-- A visit leads to all blocks that it makes, once its reference is recorded. A new block is
    reached by the reference itself, and the second part of a block that is cut is reached from the
    first. -/
theorem Visited.reached (hv : Visited e s r s') (hlaid : LaidOut e.image e.context s)
    (htarget : r.target.isSomewhere) (hrooted : ¬ r.source.isSomewhere → r.kind = .entry)
    (hsourced : r.source.isSomewhere → ∃ i, s.code.get? r.source = some i)
    (hs : ∀ {id b}, s.blocks.get? id = some b → Reached s.blocks s.references.toList b.start)
    {id : Nat} {b : Block} (hget : s'.blocks.get? id = some b) :
    Reached s'.blocks (s'.record r).references.toList b.start := by
  have hrefs : ∀ {r'}, r' ∈ s.references.toList → r' ∈ (s'.record r).references.toList :=
    fun hr => Session.mem_record_of_mem r (hv.mem_of_mem hr)
  have hr : r ∈ (s'.record r).references.toList :=
    Session.mem_record_self (by rw [Reference.isAnchored, htarget, Bool.or_true])
  cases hv with
  | misdirected code what hwhy => exact (hs hget).mono (fun hb => hb) hrefs
  | known k hstart => exact (hs hget).mono (fun hb => hb) hrefs
  | stuck code message hwhy => exact (hs hget).mono (fun hb => hb) hrefs
  | cut k whole j last i hwhole hin hj hne hi hnext hlast straight =>
      simp only [Session.record_stores] at hget ⊢
      -- The instruction in front of the cut ends there, so it lies before it.
      have hdecoded := hlaid.decoded hi
      have hpos := (Image.instructionAt?_eq_some hdecoded).1
      have hbefore := Image.toInt_next hdecoded
      rw [hnext] at hbefore
      have hflow : FlowGraph.isFlow ⟨.fallThrough, last, r.target, .nowhere⟩ := by
        simp [FlowGraph.isFlow, hlaid.isSomewhere hi, htarget, ReferenceKind.isCall]
      have hmem : (⟨.fallThrough, last, r.target, .nowhere⟩ : Reference) ∈
          ((({ s with blocks := s.blocks.cut k whole r.target } : Session).record
            ⟨.fallThrough, last, r.target, .nowhere⟩).record r).references.toList :=
        Session.mem_record_of_mem r (Session.mem_record_self (by
          rw [Reference.isAnchored, htarget, Bool.or_true]))
      have hcut : ∀ {a}, Reached s.blocks s.references.toList a →
          Reached (s.blocks.cut k whole r.target) _ a := fun ha =>
        ha.cut hwhole hin hne hlast (by omega) hrefs hmem hflow
      -- The first part was reached as the whole block, and the second is reached from it.
      have hfirst := hcut (hs hwhole)
      rcases BlockStore.get?_cut_cases hwhole hget with ⟨-, rfl⟩ | ⟨-, rfl⟩ | ⟨-, -, hold⟩
      · exact Reached.behind_cut hwhole hin hne hlast (by omega) hmem hflow hfirst
      · exact hfirst
      · exact hcut (hs hold)
  | decoded is i kind s1 fresh straight hlen hending =>
      simp only [Session.close_stores, hending.stores] at hget ⊢
      have hblocks : ∀ {k c}, s.blocks.get? k = some c →
          (s.blocks.push (Run.block r.target (is ++ [i]) kind)).get? k = some c :=
        fun hk => BlockStore.get?_push_of_get? hk
      rcases BlockStore.get?_push_cases hget with ⟨-, rfl⟩ | hold
      · -- The new block starts at the target, and the reference leads there.
        rcases isRoot_or_isFlow htarget hrooted with hroot | ⟨hflow, hsource⟩
        · exact .root hr hroot
        · rcases hsourced hsource with ⟨j, hj⟩
          have hcode : (s.bytes.get r.source).kind = .code := by
            rw [hlaid.marked hj (hlaid.spans_self hj)]
          rcases hlaid.enclosed hcode with ⟨k, c, hk, hin⟩
          exact .flow hr hflow (hblocks hk) hin ((hs hk).mono hblocks hrefs)
      · exact (hs hold).mono hblocks hrefs

/-- Following a reference keeps all blocks reached. -/
theorem Followed.owned (hf : Followed e s r s') (hlaid : LaidOut e.image e.context s)
    (hrooted : ¬ r.source.isSomewhere → r.kind = .entry)
    (hsourced : r.source.isSomewhere → ∃ i, s.code.get? r.source = some i) (hs : Owned s) :
    Owned s' := by
  cases hf with
  | slot hprobe s' h =>
      cases h with
      | refused => exact hs
      | accepted word hword hlimit hfree hin hlanding hself =>
          refine ⟨fun {r'} hr' hnowhere => ?_, hs.reached⟩
          -- A slot is read for a jump, and what it adds leaves the same jump.
          have hjump : r.kind = .indexedJump := by
            simp only [Reference.isProbe, Bool.and_eq_true, decide_eq_true_eq] at hprobe
            exact hprobe.1
          have hsource : r.source.isSomewhere := by
            by_cases hsome : r.source.isSomewhere
            · exact hsome
            · rw [hrooted hsome] at hjump
              cases hjump
          unfold Session.takeSlot at hr'
          rcases List.mem_cons.mp ((Session.mentions_enqueue _ _).mem_iff.mp hr') with rfl | hr'
          · exact absurd hsource hnowhere
          · rcases List.mem_cons.mp ((Session.mentions_enqueue _ _).mem_iff.mp hr') with rfl | hr'
            · exact absurd hsource hnowhere
            · exact hs.rooted hr' hnowhere
  | dynamic hprobe htarget =>
      refine ⟨fun {r'} hr' hnowhere => ?_, fun {id b} hget => ?_⟩
      · rcases Session.mem_mentions_record hr' with rfl | hold
        · exact hrooted hnowhere
        · exact hs.rooted hold hnowhere
      · simp only [Session.record_stores] at hget ⊢
        exact (hs.reached hget).mono (fun hb => hb) fun hr => Session.mem_record_of_mem r hr
  | visited htarget s' hv =>
      refine ⟨fun {r'} hr' hnowhere => ?_, fun {id b} hget => ?_⟩
      · rcases Session.mem_mentions_record hr' with rfl | hr'
        · exact hrooted hnowhere
        · -- What the visit adds leaves an instruction, and that is somewhere.
          rcases hv.accounts hlaid with ⟨new, hmentions, hnew, -⟩
          rcases List.mem_append.mp (hmentions.mem_iff.mp hr') with hr' | hold
          · rcases hnew r' hr' with ⟨i, hi⟩
            exact absurd ((hv.laidOut hlaid).isSomewhere hi) hnowhere
          · exact hs.rooted hold hnowhere
      · simp only [Session.record_stores] at hget ⊢
        exact hv.reached hlaid htarget hrooted hsourced hs.reached hget

end Steps

section Analyses

variable {image : Image} {context : DecodeContext} {entries : List Address}
  {options : AnalysisOptions} {cancelled : Nat → Bool} {analysis : Analysis}

/-- The step lemma. What is pending stays rooted and the blocks stay reached. -/
theorem Owned.process {limits : Limits} {s s' : Session} {r : Reference} {queue : ReferenceQueue}
    (hs : Owned s) (hlimit : 1 ≤ limits.blockInstructions)
    (hexplored : Explored image context (fun limits => 1 ≤ limits.blockInstructions) s)
    (hpop : s.queue.pop? = some (r, queue))
    (hprocess : Explorer.process ⟨image, context, limits⟩ r { s with queue := queue } = .ok s') :
    Owned s' := by
  have hlaid : LaidOut image context { s with queue := queue } :=
    hexplored.laidOut.congr rfl rfl rfl
  have hperm := s.mentions_pop hpop
  have hr : r ∈ s.mentions := hperm.mem_iff.mpr List.mem_cons_self
  have hfollowed := process_followed (e := ⟨image, context, limits⟩) hlaid hlimit hprocess
  refine hfollowed.owned hlaid (hs.rooted hr) (hexplored.balanced.sourced r hr) ⟨?_, hs.reached⟩
  exact fun hr' => hs.rooted (hperm.mem_iff.mpr (List.mem_cons_of_mem r hr'))

/-- A finished analysis comes from an explored session all of whose blocks are reached. -/
theorem exists_explored_owned (hlimit : 1 ≤ options.limits.blockInstructions)
    (h : analyzeImage image context entries options cancelled = .ok analysis) :
    ∃ s, Explored image context (fun limits => 1 ≤ limits.blockInstructions) s ∧ Owned s
      ∧ analysis = .ofSession s options.buildProcedures := by
  rcases analyzeImage_eq_ok h with ⟨seeded, s, hseed, hrun, rfl⟩
  -- Seeding queues entry points only, and each step of the run keeps both facts.
  have hseeded : Explored image context (fun limits => 1 ≤ limits.blockInstructions) seeded
      ∧ Owned seeded := by
    refine seedEntries_keeps (P := fun s => Explored image context _ s ∧ Owned s)
      (fun s entry hs hsome => ?_) ⟨.fresh, ?_⟩ hseed
    · refine ⟨hs.1.enqueue hlimit hsome .entry, fun {r} hr hnowhere => ?_, hs.2.reached⟩
      rcases List.mem_cons.mp ((s.mentions_enqueue _).mem_iff.mp hr) with rfl | hold
      · rfl
      · exact hs.2.rooted hold hnowhere
    · refine ⟨fun hr => (by cases hr), fun hget => ?_⟩
      simp [Session.fresh, BlockStore.get?] at hget
  -- Both are kept together, as the step of the one uses the other.
  have hkept := drain_keeps (e := ⟨image, context, options.limits⟩)
    (P := fun s => Explored image context (fun limits => 1 ≤ limits.blockInstructions) s ∧ Owned s)
    (fun s r queue s' hs hpop hprocess =>
      ⟨hs.1.step hlimit (by simp only [Explorer.step?, hpop, hprocess]),
        hs.2.process hlimit hs.1 hpop hprocess⟩)
    cancelled _ _ hseeded hrun
  exact ⟨s, hkept.1, hkept.2, rfl⟩

theorem exists_owned_of_analyzeImage (hlimit : 1 ≤ options.limits.blockInstructions)
    (h : analyzeImage image context entries options cancelled = .ok analysis) :
    ∃ s, LaidOut image context s ∧ Owned s
      ∧ analysis = .ofSession s options.buildProcedures := by
  rcases exists_explored_owned hlimit h with ⟨s, hexplored, hs, heq⟩
  exact ⟨s, hexplored.laidOut, hs, heq⟩

/-- A way over recorded references is a path of the graph, from the block where it starts. -/
theorem Reached.exists_path {blocks : BlockStore} {log : ReferenceLog} {a : Address} {id : Nat}
    (wf : blocks.WellFormed) (diagnostics : Diagnostics) (h : Reached blocks log.toList a)
    (hid : blocks.startingAt? a = some id) :
    ∃ r ∈ log.toList, ProcedureTable.isRoot r ∧ ∃ root, blocks.startingAt? r.target = some root
      ∧ Relation.ReflTransGen (FlowGraph.build blocks log diagnostics).1.Leads root id := by
  -- The root of the way is kept, and every flow reference adds an edge at the end of the path.
  induction h generalizing id with
  | @root r hr hroot => exact ⟨r, hr, hroot, id, hid, .refl⟩
  | @flow r k b hr hflow hget hin _ ih =>
      rcases ih (wf.startingAt?_iff.mpr ⟨b, hget, rfl⟩) with ⟨r', hr', hroot, root, hstart, hpath⟩
      refine ⟨r', hr', hroot, root, hstart, hpath.tail ?_⟩
      -- The last step leads from the block of the source to the block of the target.
      rcases wf.startingAt?_iff.mp hid with ⟨c, hc, htarget⟩
      have hfirst := Block.contains_start (wf.positive hc)
      rw [htarget] at hfirst
      exact FlowGraph.leads_build_iff.mpr ⟨r, hr, hflow, wf.find?_eq_some_iff.mpr ⟨b, hget, hin⟩,
        wf.find?_eq_some_iff.mpr ⟨c, hc, hfirst⟩⟩

/-- In a table made of procedures at the starts of blocks, the name of an owner is not empty: the
    entry of a procedure has a label, because a block starts there. The name is that of the first
    owner, and there may be others. -/
theorem Analysis.ownerName_ne_empty {a : Analysis} {code : CodeIndex} {g : FlowGraph}
    (wf : a.blocks.WellFormed) (hderived : a.procedures.Derived a.blocks code g) {id n : Nat}
    (hn : n ∈ a.procedures.owners id) : a.ownerName (Labels.ofAnalysis a) id ≠ "" := by
  unfold ownerName
  cases hhead : (a.procedures.owners id).head? with
  | none =>
      rw [List.head?_eq_none_iff] at hhead
      rw [hhead] at hn
      cases hn
  | some first =>
      rcases ProcedureTable.mem_owners_iff.mp (List.mem_of_mem_head? hhead) with ⟨p, hget, -⟩
      rcases hderived.made hget with ⟨entryBlock, hstart, -⟩
      rcases wf.startingAt?_iff.mp hstart with ⟨b, hb, hentry⟩
      have hlisted : p.entry ∈ a.blocks.inOrder.map (·.2.start) :=
        List.mem_map.mpr ⟨(entryBlock, b), wf.mem_inOrder_iff.mpr hb, hentry⟩
      simp only [hget, Option.bind_some, Labels.resolve_ofAnalysis, if_pos hlisted]
      -- Whether the label is that of the procedure or of the block, it is not empty.
      split
      · exact Labels.label_ne_empty _ _
      · exact Labels.label_ne_empty _ _

/-- Every block that is reached belongs to a procedure, and a path leads to it. -/
theorem Owned.exists_owner {s : Session} (hs : Owned s) (hlaid : LaidOut image context s)
    {id : Nat} (hid : id < s.blocks.size) :
    (∃ n, n ∈ (Analysis.ofSession s true).procedures.owners id)
      ∧ ∃ r ∈ s.references.toList, ProcedureTable.isRoot r
        ∧ ∃ root, s.blocks.startingAt? r.target = some root
          ∧ Relation.ReflTransGen (Analysis.ofSession s true).flow.Leads root id := by
  have wf := hlaid.wellFormed
  rcases BlockStore.exists_get? hid with ⟨b, hget⟩
  rcases (hs.reached hget).exists_path wf s.diagnostics (wf.startingAt?_iff.mpr ⟨b, hget, rfl⟩)
    with ⟨r, hr, hroot, root, hstart, hpath⟩
  refine ⟨?_, r, hr, hroot, root, hstart, hpath⟩
  -- The procedure at the start of the path has all blocks that the path goes through.
  rcases ProcedureTable.exists_procedure s.code
    (FlowGraph.build s.blocks s.references s.diagnostics).1
    (FlowGraph.build s.blocks s.references s.diagnostics).2 hr hroot hstart with ⟨n, hn⟩
  refine ⟨n, ProcedureTable.mem_owners_iff.mpr ⟨_, hn, ?_⟩⟩
  rcases wf.startingAt?_iff.mp hstart with ⟨c, hc, -⟩
  exact Std.TreeSet.contains_iff_mem.mpr
    ((mem_reachableFrom_build_iff wf (BlockStore.lt_size_of_get? hc)).mpr hpath)

/-- Every block of a finished analysis belongs to a procedure. A path over edges of the graph
    leads to it from a block at an entry point or at the target of a call, and no row of the
    tabular listing lacks the name of a procedure. -/
theorem analyzeImage_owned (hlimit : 1 ≤ options.limits.blockInstructions)
    (hprocedures : options.buildProcedures = true)
    (h : analyzeImage image context entries options cancelled = .ok analysis) :
    (∀ id < analysis.blocks.size,
      (∃ n p, analysis.procedures.get? n = some p ∧ p.blocks.contains id)
        ∧ ∃ r ∈ analysis.references.toList, (r.kind = .entry ∨ r.kind.isCall)
          ∧ ∃ root, analysis.blocks.startingAt? r.target = some root
            ∧ Relation.ReflTransGen analysis.flow.Leads root id)
      ∧ ∀ row ∈ analysis.csvRows, row.procedure ≠ "" := by
  rcases exists_owned_of_analyzeImage hlimit h with ⟨s, hlaid, hs, rfl⟩
  rw [hprocedures]
  constructor
  · intro id hid
    rcases hs.exists_owner hlaid hid with ⟨⟨n, hn⟩, r, hr, hroot, root, hstart, hpath⟩
    simp only [ProcedureTable.isRoot, Bool.and_eq_true, Bool.or_eq_true, decide_eq_true_eq] at hroot
    rcases ProcedureTable.mem_owners_iff.mp hn with ⟨p, hget, hin⟩
    exact ⟨⟨n, p, hget, hin⟩, r, hr, hroot.1.symm, root, hstart, hpath⟩
  · intro row hrow
    -- A row stands in the rows of a block, and shows the name of an owner of the block.
    rcases List.mem_flatMap.mp hrow with ⟨⟨id, b⟩, hlisted, hrow⟩
    have hget := hlaid.wellFormed.mem_inOrder_iff.mp hlisted
    rcases (hs.exists_owner hlaid (BlockStore.lt_size_of_get? hget)).1 with ⟨n, hn⟩
    rcases List.mem_map.mp hrow with ⟨instruction, -, rfl⟩
    exact Analysis.ownerName_ne_empty hlaid.wellFormed ProcedureTable.derived_detect hn

end Analyses

/-- A call, a return, and behind them the procedure that is called: it jumps back into its
    own first block. -/
def callAhead : Image := Image.ofBytes #[0xE8, 0x01, 0x00, 0xC3, 0x90, 0x90, 0xEB, 0xFD] 0

/-- The jump back cuts the block of the procedure, so there are four blocks. -/
theorem analyzeImage_owned_callAhead :
    ∃ analysis, analyzeImage callAhead {} [] {} (fun _ => false) = .ok analysis
      ∧ analysis.blocks.size = 4
      ∧ (∀ id < 4, ∃ n p, analysis.procedures.get? n = some p ∧ p.blocks.contains id)
      ∧ ∀ row ∈ analysis.csvRows, row.procedure ≠ "" := by
  have hsize : (analyzeImage callAhead {} [] {} (fun _ => false)).toOption.any
      (fun analysis => analysis.blocks.size = 4) = true := by
    decide +kernel
  rcases exists_ok_of_any hsize with ⟨analysis, h, hany⟩
  have hfour : analysis.blocks.size = 4 := of_decide_eq_true hany
  rcases analyzeImage_owned (by decide) rfl h with ⟨howned, hrows⟩
  exact ⟨analysis, h, hfour, fun id hid => (howned id (by omega)).1, hrows⟩

end Disasm86
