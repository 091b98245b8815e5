import Disasm86.Proofs.Accounting
import Disasm86.Proofs.Lanes

/-!
# What Following a Reference Does to Tables

A jump through a table is known by several things at once: the instruction in the index,
a counter, the marks of its slots, and the references that lead through it, of which some
are recorded and some are pending. This module tells, for each reference that is followed,
how they change together.

The references through tables are listed in one row, those in the log first and those in
the queue behind them. All of them have one rank, so what is queued comes to the end of the
row. And what is taken out of the queue and recorded does not move, because it was the first
of the queue and becomes the last of the log. The row therefore changes in three ways only.
A visit that comes upon a jump puts the first slot of its table at the end. Reading a slot
takes the slot out of the row. And if the slot is accepted, what it holds and the slot behind
it are put at the end.

## Main definitions

* `Session.table?`: The first slot of the table that an indexed instruction reads.
* `Session.tableReferences`: References through tables, in the order of recording.
* `Found`: What a visit does to tables.
* `TableStep`: What following a reference does to them.

## Theorems

* `tableReferences_enqueue`: What is queued comes last.
* `tableReferences_pop_record`: Recording what was next leaves the row as it is.
* `Visited.found`: A visit at most finds the first slot of a table.
* `Followed.tableStep`: Following a reference changes tables in one of the ways listed.
-/

namespace Disasm86

/-- Whether a reference leads through a jump table. -/
def Reference.isIndexed (r : Reference) : Bool := r.kind = .indexedJump

/-- What stands for a slot leads through a table. -/
theorem Reference.isIndexed_of_isProbe {r : Reference} (h : r.isProbe) : r.isIndexed :=
  (Bool.and_eq_true_iff.mp h).1

/-- The first slot of the table that the instruction at an address reads. -/
def Session.table? (s : Session) (a : Address) : Option Address :=
  (s.code.get? a).bind (jumpTableSlot? a)

/-- The references through tables, in the order in which they are recorded. Those that are pending
    come last, and as all of them have one rank, they are recorded in the order in which they are
    pending. -/
def Session.tableReferences (s : Session) : List Reference :=
  s.mentions.filter Reference.isIndexed

/-- What a visit does to tables. It may find probes, which are the first slots of tables that
    nothing was known of. Bytes may become code, but none becomes data. -/
structure Found (s : Session) (probes : List Reference) (s' : Session) : Prop where
  references : s'.tableReferences = s.tableReferences ++ probes
  slots : s'.tableSlots = s.tableSlots
  data_iff : ∀ a lead, s'.bytes.get a = ⟨.data, lead⟩ ↔ s.bytes.get a = ⟨.data, lead⟩
  firsts : ∀ a, (probes.filter (·.source = a) = [] ∧ s'.table? a = s.table? a)
    ∨ (s.table? a = none
      ∧ probes.filter (·.source = a) = ((s'.table? a).map (Reference.probe a)).toList)

/-- The ways in which following a reference changes tables, from before the reference is taken out
    of the queue. They are what is proved of a step here; what holds of tables over a whole run is
    derived from them, without another look at visits. -/
inductive TableStep (e : Explorer) (s s' : Session) : Prop
  /-- No slot has been read. -/
  | found (probes : List Reference) (h : Found s probes s')
  /-- A slot has been read that is not part of the table. -/
  | ended (front back : List Reference) (r : Reference) (hprobe : r.isProbe)
      (hold : s.tableReferences = front ++ r :: back) (hnew : s'.tableReferences = front ++ back)
      (hslots : s'.tableSlots = s.tableSlots) (hbytes : s'.bytes = s.bytes)
      (hcode : s'.code = s.code)
  /-- A slot has been read that is. -/
  | took (front back : List Reference) (r : Reference) (word : List UInt8) (hprobe : r.isProbe)
      (hold : s.tableReferences = front ++ r :: back)
      (hnew : s'.tableReferences = front ++ back
        ++ [⟨.indexedJump, r.source, ⟨r.source.segment, Int32.ofNat (littleEndian word)⟩, r.slot⟩,
          .probe r.source (r.slot.advance 2)])
      (hword : e.image.bytes? r.slot 2 = some word)
      (hlimit : s.tableSlots.getD r.source 0 < e.limits.tableSlots)
      (hfree : ∀ a, r.slot.Spans 2 a → (s.bytes.get a).kind = .unknown)
      (hin : e.image.contains ⟨r.source.segment, Int32.ofNat (littleEndian word)⟩)
      (hslots : s'.tableSlots
        = s.tableSlots.insert r.source (s.tableSlots.getD r.source 0 + 1))
      (hbytes : s'.bytes = s.bytes.put r.slot .data 2) (hcode : s'.code = s.code)

namespace Session

variable (s : Session) {s' : Session} {r : Reference}

theorem tableReferences_congr (hreferences : s'.references = s.references)
    (hqueue : s'.queue = s.queue) : s'.tableReferences = s.tableReferences := by
  unfold tableReferences
  rw [s.mentions_congr hreferences hqueue]

theorem table?_congr (hcode : s'.code = s.code) (a : Address) : s'.table? a = s.table? a := by
  unfold table?
  rw [hcode]

/-- A reference through a table is queued behind all others of that sort. -/
theorem tableReferences_enqueue (h : s.queue.Ranked) (r : Reference) :
    (s.enqueue r).tableReferences = s.tableReferences ++ [r].filter Reference.isIndexed := by
  have hrank : ∀ x : Reference, x.isIndexed → x.kind.rank = 7 := by
    intro x hx
    rw [of_decide_eq_true hx]
    rfl
  unfold tableReferences mentions
  rw [List.filter_append, List.filter_append, List.append_assoc]
  exact congrArg _ (h.filter_push hrank r)

/-- Other references go to the log without a trace among those through tables. -/
theorem filter_references_record (hr : ¬ r.isIndexed) :
    (s.record r).references.toList.filter Reference.isIndexed
      = s.references.toList.filter Reference.isIndexed := by
  unfold record
  by_cases hends : r.isAnchored
  · rw [if_pos hends]
    simp [ReferenceLog.push, ReferenceLog.toList, hr]
  · rw [if_neg hends]
    rfl

/-- So recording them changes nothing for tables. -/
theorem tableReferences_record (hr : ¬ r.isIndexed) :
    (s.record r).tableReferences = s.tableReferences := by
  unfold tableReferences mentions
  rw [List.filter_append, List.filter_append, s.filter_references_record hr]
  simp only [record_stores]

/-- A reference that is next and gets recorded goes from the front of the queue to the end
    of the log. Nothing that has been queued meanwhile came in between. -/
theorem tableReferences_pop_record {queue : ReferenceQueue} {new : List Reference}
    (hpop : s.queue.pop? = some (r, queue)) (hr : r.isAnchored)
    (hlog : s'.references.toList.filter Reference.isIndexed
      = s.references.toList.filter Reference.isIndexed)
    (hqueue : s'.tableReferences
      = ({ s with queue := queue } : Session).tableReferences ++ new) :
    (s'.record r).tableReferences = s.tableReferences ++ new := by
  unfold tableReferences mentions record at *
  rw [if_pos hr]
  simp only [List.filter_append, hlog, List.append_assoc, List.append_cancel_left_eq] at hqueue
  -- The log is followed by the reference, and then by the rest of the queue.
  simp only [ReferenceLog.push, ReferenceLog.toList, Array.toList_push, List.filter_append,
    ReferenceQueue.pop?_eq_some hpop, List.append_assoc] at *
  rw [hlog, hqueue, ← List.append_assoc ([r].filter _), ← List.filter_append,
    List.singleton_append]

end Session

section Emission

variable {a : Address} {i : Instruction} {t : Transfer}

/-- An instruction that transfers no control reads no table. -/
theorem jumpTableSlot?_eq_none (h : i.transfer? = none) : jumpTableSlot? a i = none := by
  cases hslot : jumpTableSlot? a i with
  | none => rfl
  | some slot =>
      rw [transfer?_of_jumpTableSlot? hslot] at h
      cases h

/-- The references through tables of an instruction: the first slot, if it reads a table. -/
theorem filter_isIndexed_emission (ht : i.transfer? = some t) :
    ((emission a i t).filterMap Note.reference?).filter Reference.isIndexed
      = ((jumpTableSlot? a i).map (Reference.probe a)).toList := by
  have hfall : ((if t.fallsThrough then [Note.queued ⟨.fallThrough, a, i.next a, .nowhere⟩]
      else []).filterMap Note.reference?).filter Reference.isIndexed = [] := by
    split <;> rfl
  unfold emission
  rw [List.filterMap_append, List.filter_append, hfall, List.append_nil]
  cases hslot : jumpTableSlot? a i with
  | none =>
      split
      · rw [List.filterMap_append, List.filter_append, filterMap_targetEmission]
        rfl
      · rfl
  | some slot =>
      -- The transfer is a near jump, and that names its target.
      have hjump := transfer?_of_jumpTableSlot? hslot
      rw [ht, Option.some.injEq] at hjump
      rw [hjump, if_pos (by decide), List.filterMap_append, List.filter_append,
        filterMap_targetEmission]
      rfl

/-- No reference through a table is recorded before it has been queued. -/
theorem not_isIndexed_of_recorded {r : Reference} (h : Note.recorded r ∈ emission a i t) :
    ¬ r.isIndexed := by
  rw [eq_of_recorded_mem_emission h]
  simp [Reference.isIndexed]

end Emission

namespace Session

variable (s : Session)

/-- Recording, emitting and closing leave the counters of slots alone. -/
theorem record_tableSlots (r : Reference) : (s.record r).tableSlots = s.tableSlots := by
  unfold record
  split <;> rfl

/-- No note takes a slot. -/
theorem emit_tableSlots (a : Address) (i : Instruction) (t : Transfer) :
    (s.emit a i t).tableSlots = s.tableSlots := by
  rw [emit_eq_foldl]
  induction emission a i t generalizing s with
  | nil => rfl
  | cons n notes ih =>
      rw [List.foldl_cons, ih]
      cases n with
      | queued r => rfl
      | recorded r => exact s.record_tableSlots r
      | reported location code message => rfl

/-- Closing a block may report something, and that is all. -/
theorem close_tableSlots (start : Address) (is : List Instruction) (kind : BlockKind) :
    (s.close start is kind).tableSlots = s.tableSlots := by
  unfold close
  by_cases hk : kind = .broken
  · rw [if_pos hk]
    rfl
  · rw [if_neg hk]

/-- The log has no more references through tables than before, and the queue is in order. -/
def Orderly (s s' : Session) : Prop :=
  s'.queue.Ranked ∧ s'.references.toList.filter Reference.isIndexed
    = s.references.toList.filter Reference.isIndexed

/-- The queue is not touched, and what is recorded is not of that sort. -/
theorem orderly_record (h : s.queue.Ranked) {r : Reference} (hr : ¬ r.isIndexed) :
    s.Orderly (s.record r) :=
  ⟨by simp only [record_stores]; exact h, s.filter_references_record hr⟩

/-- A session that is told notes has their references through tables at the end. -/
theorem tableReferences_foldl_note (h : s.queue.Ranked) (notes : List Note)
    (hnotes : ∀ r, Note.recorded r ∈ notes → ¬ r.isIndexed) :
    s.Orderly (notes.foldl note s) ∧ (notes.foldl note s).tableReferences
      = s.tableReferences ++ (notes.filterMap Note.reference?).filter Reference.isIndexed := by
  induction notes generalizing s with
  | nil => exact ⟨⟨h, rfl⟩, (List.append_nil _).symm⟩
  | cons n notes ih =>
      have hrest : ∀ r, Note.recorded r ∈ notes → ¬ r.isIndexed :=
        fun r hr => hnotes r (List.mem_cons_of_mem n hr)
      -- Only a note that queues something can bring up a slot.
      cases n with
      | queued r =>
          rcases ih (s.enqueue r) (h.push r) hrest with ⟨horderly, hrefs⟩
          refine ⟨horderly, hrefs.trans ?_⟩
          rw [s.tableReferences_enqueue h, List.append_assoc, ← List.filter_append,
            List.singleton_append]
          rfl
      | recorded r =>
          have hr := hnotes r List.mem_cons_self
          have hone := s.orderly_record h hr
          rcases ih (s.record r) hone.1 hrest with ⟨horderly, hrefs⟩
          refine ⟨⟨horderly.1, horderly.2.trans hone.2⟩, hrefs.trans ?_⟩
          rw [s.tableReferences_record hr]
          simp [Note.reference?, hr]
      | reported location code message =>
          exact ih (s.report location code message) h hrest

/-- A slot that is taken comes to the end, and the slot behind it comes after that. -/
theorem tableReferences_takeSlot (h : s.queue.Ranked) (source slot target : Address) :
    (s.takeSlot source slot target).tableReferences = s.tableReferences
      ++ [⟨.indexedJump, source, target, slot⟩, .probe source (slot.advance 2)] := by
  unfold takeSlot
  generalize hmarked : ({ s with
    tableSlots := s.tableSlots.insert source (s.tableSlots.getD source 0 + 1)
    bytes := s.bytes.put slot .data 2 } : Session) = marked
  have hqueue : marked.queue = s.queue := by rw [← hmarked]
  have hlog : marked.references = s.references := by rw [← hmarked]
  have hranked : marked.queue.Ranked := by rw [hqueue]; exact h
  rw [tableReferences_enqueue _ (hranked.push _), tableReferences_enqueue _ hranked,
    s.tableReferences_congr hlog hqueue, List.append_assoc]
  rfl

end Session

section Steps

variable {e : Explorer} {s s' : Session} {r : Reference}

/-- Nothing has been found if the stores that know of tables have not changed. -/
theorem Found.of_eq (hreferences : s'.tableReferences = s.tableReferences)
    (hslots : s'.tableSlots = s.tableSlots) (hbytes : s'.bytes = s.bytes)
    (hcode : s'.code = s.code) : Found s [] s' where
  references := by rw [hreferences, List.append_nil]
  slots := hslots
  data_iff a lead := by rw [hbytes]
  firsts a := Or.inl ⟨rfl, s.table?_congr hcode a⟩

/-- Before a block is closed, the first slot is pending of the table that its last
    instruction reads. -/
theorem Ending.tableReferences {start : Address} {is : List Instruction} {i : Instruction}
    {kind : BlockKind} (hranked : s.queue.Ranked) (h : Ending s start is i kind s') :
    s.Orderly s' ∧ s'.tableSlots = s.tableSlots ∧ s'.tableReferences = s.tableReferences
      ++ ((jumpTableSlot? (Run.stop start is) i).map
        (Reference.probe (Run.stop start is))).toList := by
  have htake : (s.takeRun start (is ++ [i])).queue = s.queue
      ∧ (s.takeRun start (is ++ [i])).references = s.references
      ∧ (s.takeRun start (is ++ [i])).tableSlots = s.tableSlots := by
    rw [Session.takeRun_eq]
    exact ⟨rfl, rfl, rfl⟩
  -- Taking instructions over leaves the queue and the log alone.
  rcases htake with ⟨hqueue, hlog, hslots⟩
  have hrefs := s.tableReferences_congr hlog hqueue
  have htaken : (s.takeRun start (is ++ [i])).queue.Ranked := by
    rw [hqueue]
    exact hranked
  cases h with
  | ranOn ht =>
      refine ⟨⟨htaken.push _, by rw [← hlog]; rfl⟩, hslots, ?_⟩
      rw [Session.tableReferences_enqueue _ htaken, hrefs, jumpTableSlot?_eq_none ht]
      rfl
  | brokeOff ht code message hreport =>
      refine ⟨⟨htaken, by rw [← hlog]; rfl⟩, hslots, ?_⟩
      rw [jumpTableSlot?_eq_none ht]
      simp only [Option.map_none, Option.toList_none, List.append_nil]
      exact hrefs
  | transferred t ht =>
      rcases Session.tableReferences_foldl_note _ htaken (emission (Run.stop start is) i t)
        (fun _ hr => not_isIndexed_of_recorded hr) with ⟨horderly, hnew⟩
      rw [← Session.emit_eq_foldl] at horderly hnew
      refine ⟨⟨horderly.1, by rw [horderly.2, hlog]⟩, ?_, ?_⟩
      · rw [Session.emit_tableSlots, hslots]
      · rw [hnew, filter_isIndexed_emission ht, hrefs]

/-- A run that is taken over brings up one table at most, that of its last instruction. -/
theorem table?_close (hlaid : LaidOut e.image e.context s)
    (hlaid' : LaidOut e.image e.context s') {start a : Address} {is : List Instruction}
    {i : Instruction} (fresh : Fresh e s start (is ++ [i]))
    (straight : ∀ j ∈ is, j.transfer? = none)
    (hcode : s'.code = (s.takeRun start (is ++ [i])).code) :
    (a ≠ Run.stop start is ∧ s'.table? a = s.table? a)
      ∨ (a = Run.stop start is ∧ s.table? a = none ∧ s'.table? a = jumpTableSlot? a i) := by
  have hne : is ++ [i] ≠ [] := by simp
  have hrun : IsRun s'.code.get? start (is ++ [i]) := by
    rw [hcode]
    exact Session.isRun_takeRun s fresh.run
  -- The bytes of the run were unknown, so no instruction was indexed there.
  have hbefore : start.Spans (Run.size (is ++ [i])) a → s.table? a = none := by
    intro hspan
    have hnone : s.code.get? a = none := by
      refine hlaid.get?_eq_none fun hlead => ?_
      have hunknown := fresh.unknown a hspan
      rw [hlead] at hunknown
      cases hunknown
    rw [Session.table?, hnone]
    rfl
  by_cases hlast : a = Run.stop start is
  · refine Or.inr ⟨hlast, hbefore ?_, ?_⟩
    · rw [hlast]
      exact Run.spans_last fresh.run
    · rw [Session.table?, hlast, (isRun_append.mp hrun).2.1]
      rfl
  · refine Or.inl ⟨hlast, ?_⟩
    by_cases hspan : start.Spans (Run.size (is ++ [i])) a
    · -- The instructions in front of the last are straight, so they read no table.
      rw [hbefore hspan, Session.table?]
      cases hj : s'.code.get? a with
      | none => rfl
      | some j =>
          have hfill : Filled s'.code (Run.block start (is ++ [i]) .fallThrough) is i :=
            ⟨hrun, Run.toInt_block_length fresh.run hne _, straight⟩
          have hin := (Run.contains_block fresh.run hne .fallThrough).mpr hspan
          have hmem := hfill.mem_of_ne_last hlaid'.toIndexed hin hj hlast
          exact jumpTableSlot?_eq_none (straight j hmem)
    · unfold Session.table?
      rw [hcode, Session.takeRun_get?_outside s fresh.run hspan]

/-- A visit reads no slot. At most it comes upon a jump through a table, and then the first
    slot of that table is pending. -/
theorem Visited.found (hlaid : LaidOut e.image e.context s) (hranked : s.queue.Ranked)
    (hv : Visited e s r s') : s.Orderly s' ∧ ∃ probes, Found s probes s' := by
  have hlaid' := hv.laidOut hlaid
  cases hv with
  | misdirected code what h => exact ⟨⟨hranked, rfl⟩, [], .of_eq rfl rfl rfl rfl⟩
  | known id h => exact ⟨⟨hranked, rfl⟩, [], .of_eq rfl rfl rfl rfl⟩
  | stuck code message h hunknown => exact ⟨⟨hranked, rfl⟩, [], .of_eq rfl rfl rfl rfl⟩
  | cut id whole j last i hget hin hj hne hi hnext hlast straight =>
      have hkind : ¬ Reference.isIndexed ⟨.fallThrough, last, r.target, .nowhere⟩ := by
        simp [Reference.isIndexed]
      refine ⟨Session.orderly_record { s with blocks := s.blocks.cut id whole r.target }
        hranked hkind, [], .of_eq ?_ (Session.record_tableSlots _ _) ?_ ?_⟩
      · exact Session.tableReferences_record _ hkind
      · simp only [Session.record_stores]
      · simp only [Session.record_stores]
  | decoded is i kind s1 fresh straight hlen hending =>
      rcases hending.tableReferences hranked with ⟨⟨hqueue, hlog⟩, hslots, hrefs⟩
      rcases hending.stores with ⟨hbytes, hcode, -⟩
      rcases s1.close_stores r.target (is ++ [i]) kind with ⟨hb, hc, -, hq, hr⟩
      refine ⟨⟨by rw [hq]; exact hqueue, by rw [hr]; exact hlog⟩,
        ((jumpTableSlot? (Run.stop r.target is) i).map
          (Reference.probe (Run.stop r.target is))).toList, ?_, ?_, ?_, ?_⟩
      · exact (s1.tableReferences_congr hr hq).trans hrefs
      · exact (s1.close_tableSlots _ _ _).trans hslots
      · -- The run was unknown before and is code now, so it is data neither time.
        intro a lead
        rw [hb, hbytes]
        by_cases hspan : r.target.Spans (Run.size (is ++ [i])) a
        · have hbefore := fresh.unknown a hspan
          have hafter := Session.takeRun_kind_inside s fresh.run hspan
          constructor <;> intro hdata
          · rw [hdata] at hafter
            cases hafter
          · rw [hdata] at hbefore
            cases hbefore
        · rw [Session.takeRun_get_outside s fresh.run hspan]
      · intro a
        -- The last instruction may read a table, and for all others nothing has changed.
        rcases table?_close (a := a) hlaid hlaid' fresh straight (hc.trans hcode)
          with ⟨hne, hsame⟩ | ⟨rfl, hnone, hnew⟩
        · refine Or.inl ⟨List.filter_eq_nil_iff.mpr fun q hq => ?_, hsame⟩
          rw [Option.mem_toList, Option.map_eq_some_iff] at hq
          rcases hq with ⟨slot, -, rfl⟩
          simp only [Reference.probe, Ne.symm hne, decide_false, Bool.false_eq_true,
            not_false_eq_true]
        · refine Or.inr ⟨hnone, ?_⟩
          rw [hnew]
          cases jumpTableSlot? (Run.stop r.target is) i with
          | none => rfl
          | some slot => simp [Reference.probe]

/-- Following the reference that is next changes tables in one of the ways listed, and keeps
    the queue in order. -/
theorem Followed.tableStep {queue : ReferenceQueue} (hpop : s.queue.pop? = some (r, queue))
    (hranked : s.queue.Ranked) (hlaid : LaidOut e.image e.context { s with queue := queue })
    (hf : Followed e { s with queue := queue } r s') :
    s'.queue.Ranked ∧ TableStep e s s' := by
  have hpopped := hranked.pop? hpop
  -- The probe is the first of those pending, so it stands right behind the log.
  have hrow : r.isProbe → s.tableReferences
      = s.references.toList.filter Reference.isIndexed ++ r :: queue.pending.filter
        Reference.isIndexed := by
    intro hprobe
    rw [Session.tableReferences, Session.mentions, ReferenceQueue.pop?_eq_some hpop,
      List.filter_append, List.filter_cons_of_pos (Reference.isIndexed_of_isProbe hprobe)]
  cases hf with
  | slot hprobe s' h =>
      cases h with
      | refused =>
          exact ⟨hpopped, .ended _ _ r hprobe (hrow hprobe) (List.filter_append ..) rfl rfl rfl⟩
      | accepted word hword hlimit hfree hin hlanding hself =>
          refine ⟨(hpopped.push _).push _, .took _ _ r word hprobe (hrow hprobe) ?_ hword hlimit
            hfree hin rfl rfl rfl⟩
          rw [Session.tableReferences_takeSlot _ hpopped, Session.tableReferences,
            Session.mentions, List.filter_append]
  | dynamic hprobe htarget =>
      -- A reference without a target that is no probe does not lead through a table.
      have hkind : ¬ r.isIndexed := by
        intro hindexed
        refine hprobe ?_
        rw [Reference.isProbe, Bool.and_eq_true]
        exact ⟨hindexed, by simpa using htarget⟩
      refine ⟨by simp only [Session.record_stores]; exact hpopped, .found [] (.of_eq ?_ ?_ ?_ ?_)⟩
      · rw [Session.tableReferences_record _ hkind]
        unfold Session.tableReferences Session.mentions
        rw [ReferenceQueue.pop?_eq_some hpop, List.filter_append, List.filter_append,
          List.filter_cons_of_neg hkind]
        rfl
      · exact Session.record_tableSlots _ _
      · simp only [Session.record_stores]
        rfl
      · simp only [Session.record_stores]
        rfl
  | visited htarget s1 hv =>
      have hanchored : r.isAnchored := by
        rw [Reference.isAnchored, htarget, Bool.or_true]
      rcases hv.found hlaid hpopped with ⟨⟨hqueue, hlog⟩, probes, hfound⟩
      refine ⟨by simp only [Session.record_stores]; exact hqueue, .found probes ?_⟩
      refine ⟨?_, ?_, fun a lead => ?_, fun a => ?_⟩
      · exact s.tableReferences_pop_record hpop hanchored hlog hfound.references
      · rw [Session.record_tableSlots, hfound.slots]
      · simp only [Session.record_stores]
        exact hfound.data_iff a lead
      · rw [s1.table?_congr (by simp only [Session.record_stores])]
        exact hfound.firsts a

end Steps

end Disasm86
