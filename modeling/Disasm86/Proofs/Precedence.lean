import Disasm86.Proofs.Arrivals
import Disasm86.Proofs.Draining
import Disasm86.Proofs.JumpTables

/-!
# Direct Flow Comes First

What the order of the queue means for exploring. A slot of a jump table is read only when
nothing more certain is left to be followed, and the slots of a table are read in turn: what
one of them leads to has been followed before the next is read.

The first is a matter of ranks. Following a reference changes the queue by pushing alone, so
a queue that was made by pushes and pops stays one, and what is popped has the least rank.
References through tables come last of all that lead anywhere.

For the second, a slot that is accepted queues two references of the same rank, first the one
that it holds and then the slot behind it. References of one rank are never overtaken, so from
then on the first of the two is followed right before the second, as far as tables are
concerned. This holds of every session, whatever is queued in it.

In a session that exploring has led to more can be said, since each table is found but once.
All that has been accepted of the table has then been recorded when another slot of it is to
be read. Nothing is assumed of the limits, which may even change from call to call, or allow
no instruction in a block.

## Main definitions

* `Explorer.trail`: The references that are followed, in order.
* `TablesLast`: Slots are read when nothing more certain is pending, and in turn.
* `Session.InTurn`: How far the tables of a session have been read.
* `Session.ReadsInTurn`: What that means for a slot that is next.

## Theorems

* `process_queued`: Following a reference pushes, and does nothing else to the queue.
* `trail_indexed`: References through tables are not overtaken.
* `tablesLast_of_ranked`: Direct flow comes first in every session with an orderly queue.
* `process_tableStep`: What following does to tables, for all limits.
* `Explored.readsInTurn`: The slots of a table are read in turn.
* `direct_flow_first`: The queue serves by rank and arrival, and exploring goes by that.
-/

namespace Disasm86

open QueueEvent

/-- Nothing leaves the queue, and what comes in is pushed. -/
def Session.Queued (s s' : Session) : Prop :=
  ∃ rs : List Reference, s'.queue = rs.foldl ReferenceQueue.push s.queue

/-- The pending references through tables, the next one first. -/
def ReferenceQueue.indexed (q : ReferenceQueue) : List Reference :=
  q.pending.filter Reference.isIndexed

/-- All references through tables have the same rank. -/
theorem Reference.rank_of_isIndexed {r : Reference} (h : r.isIndexed) :
    r.kind.rank = ReferenceKind.indexedJump.rank := by
  rw [of_decide_eq_true h]

section Queues

variable {q : ReferenceQueue}

theorem ReferenceQueue.Ranked.foldl_push (h : q.Ranked) (rs : List Reference) :
    (rs.foldl ReferenceQueue.push q).Ranked := by
  induction rs generalizing q with
  | nil => exact h
  | cons r rs ih => exact ih (h.push r)

/-- Among themselves the references through tables are served in the order of their arrival, because
    they have one rank. -/
theorem ReferenceQueue.Ranked.indexed_push (h : q.Ranked) (r : Reference) :
    (q.push r).indexed = q.indexed ++ [r].filter Reference.isIndexed :=
  h.filter_push (fun _ hx => Reference.rank_of_isIndexed hx) r

/-- The same for many, by induction on what is pushed. -/
theorem ReferenceQueue.Ranked.indexed_foldl_push (h : q.Ranked) (rs : List Reference) :
    (rs.foldl ReferenceQueue.push q).indexed = q.indexed ++ rs.filter Reference.isIndexed := by
  induction rs generalizing q with
  | nil => exact (List.append_nil _).symm
  | cons r rs ih =>
      rw [List.foldl_cons, ih (h.push r), h.indexed_push, List.append_assoc, ← List.filter_append,
        List.singleton_append]

end Queues

namespace Session

variable {s s' s'' : Session}

theorem Queued.of_eq (h : s'.queue = s.queue) : s.Queued s' := ⟨[], h⟩

/-- One part of the work after the other pushes the one and then the other. -/
theorem Queued.trans (h : s.Queued s') (h' : s'.Queued s'') : s.Queued s'' := by
  rcases h with ⟨rs, hrs⟩
  rcases h' with ⟨rs', hrs'⟩
  exact ⟨rs ++ rs', by rw [List.foldl_append, ← hrs, hrs']⟩

theorem queued_enqueue (s : Session) (r : Reference) : s.Queued (s.enqueue r) := ⟨[r], rfl⟩

theorem queued_takeRun (s : Session) (start : Address) (is : List Instruction) :
    s.Queued (s.takeRun start is) := by
  refine .of_eq ?_
  rw [takeRun_eq]

/-- Of the notes only some push, and none of them pops. -/
theorem queued_foldl_note (s : Session) (notes : List Note) : s.Queued (notes.foldl note s) := by
  induction notes generalizing s with
  | nil => exact .of_eq rfl
  | cons n notes ih =>
      refine Queued.trans ?_ (ih (s.note n))
      cases n with
      | queued r => exact s.queued_enqueue r
      | recorded r => exact .of_eq (by simp only [note, record_stores])
      | reported location code message => exact .of_eq rfl

end Session

namespace Explorer

variable {e : Explorer} {s s' : Session} {r : Reference} {queue : ReferenceQueue}

/-- Decoding a block pushes where its last instruction leads. What it took over and closed does not
    show in the queue. -/
theorem decodeBlock_queued {start : Address} (hdecode : e.decodeBlock start s = .ok s') :
    s.Queued s' := by
  have hout := decodeStretch_outcome e e.limits.blockInstructions start s
  rcases except_map_eq_ok.mp hdecode with ⟨stretch, hstretch, rfl⟩
  refine Session.Queued.trans ?_ (.of_eq (closeBlock_stores start stretch).1)
  rw [hstretch] at hout
  -- Whichever way the stretch ends, its run is taken over before anything is queued.
  cases hout with
  | full is fresh straight hlen =>
      exact (s.queued_takeRun start is).trans (Session.queued_enqueue _ _)
  | blocked is fresh straight hlen code message hobstacle =>
      exact (s.queued_takeRun start is).trans (.of_eq rfl)
  | data is fresh straight hlen hne hkind =>
      exact (s.queued_takeRun start is).trans (.of_eq rfl)
  | met is i fresh straight hlen hkind =>
      exact (s.queued_takeRun start (is ++ [i])).trans (Session.queued_enqueue _ _)
  | transferred is i t fresh straight ht hlen =>
      refine (s.queued_takeRun start (is ++ [i])).trans ?_
      simp only [Session.emit_eq_foldl]
      exact Session.queued_foldl_note _ _

/-- Following a reference pushes to the queue, and does nothing else to it. -/
theorem process_queued (hprocess : e.process r s = .ok s') : s.Queued s' := by
  -- The three cases: a slot is read, a target is known or out of reach, or a block is decoded.
  rcases process_cases e r s with hcase | ⟨t, hcase, hqueue, -⟩ | ⟨-, hcase⟩
  · rw [hcase] at hprocess
    cases hprocess
    have hread := readSlot_slotRead e s r
    generalize e.readSlot r s = s' at hread
    cases hread with
    | refused => exact .of_eq rfl
    | accepted word hword hlimit hfree hin hlanding hself => exact ⟨[_, _], rfl⟩
  · rw [hcase] at hprocess
    cases hprocess
    exact .of_eq hqueue
  · -- Only where nothing is known of the target can something be queued.
    rw [hcase] at hprocess
    rcases except_map_eq_ok.mp hprocess with ⟨t, hdecode, rfl⟩
    exact (decodeBlock_queued hdecode).trans (.of_eq (by simp only [Session.record_stores]))

/-- The references that are followed first, up to `n` of them, in order. -/
def trail (e : Explorer) : Nat → Session → List Reference
  | 0, _ => []
  | n + 1, s =>
    match s.queue.pop? with
    | none => []
    | some (r, queue) =>
      match e.process r { s with queue := queue } with
      | .error _ => []
      | .ok s' => r :: e.trail n s'

/-- What is popped was the first, so it is the first of the references through tables if it is one
    of them. -/
theorem indexed_of_pop? {q : ReferenceQueue} (hpop : q.pop? = some (r, queue)) :
    q.indexed = [r].filter Reference.isIndexed ++ queue.indexed := by
  rw [ReferenceQueue.indexed, ReferenceQueue.pop?_eq_some hpop, ← List.singleton_append,
    List.filter_append]
  rfl

/-- References through tables are not overtaken by each other. Those that have been followed
    and those that are pending are the ones that were pending before, and then newer ones. -/
theorem trail_indexed (hranked : s.queue.Ranked) {n : Nat} (h : e.follow n s = some s') :
    s'.queue.Ranked ∧ ∃ new, (e.trail n s).filter Reference.isIndexed ++ s'.queue.indexed
      = s.queue.indexed ++ new := by
  -- By induction on the steps. What is new to a step is new to the whole, and it goes behind what
  -- was pending.
  induction n generalizing s with
  | zero =>
      cases h
      exact ⟨hranked, [], (List.append_nil _).symm⟩
  | succ n ih =>
      rcases follow_succ h with ⟨next, hstep, hrest⟩
      rcases step?_eq_some hstep with ⟨r, queue, hpop, hprocess⟩
      have hpopped := hranked.pop? hpop
      -- The step takes the first away and puts others at the end.
      rcases process_queued hprocess with ⟨rs, hrs⟩
      have hnext : next.queue.Ranked := by
        rw [hrs]
        exact hpopped.foldl_push rs
      rcases ih hnext hrest with ⟨hranked', new, hnew⟩
      rw [hrs, hpopped.indexed_foldl_push, List.append_assoc] at hnew
      refine ⟨hranked', rs.filter Reference.isIndexed ++ new, ?_⟩
      simp only [trail, hpop, hprocess]
      rw [← List.singleton_append, List.filter_append, List.append_assoc, hnew,
        indexed_of_pop? hpop, List.append_assoc]

/-- When the next reference is a slot to be read, nothing more certain is pending. If the slot is
    accepted, what it holds is followed right before the slot behind it, as far as tables are
    concerned. So bytes are taken for a table only after direct flow has had its turn. -/
structure TablesLast (e : Explorer) (s : Session) : Prop where
  settled : ∀ r queue, s.queue.pop? = some (r, queue) → r.isProbe →
    ∀ x ∈ queue.pending, ReferenceKind.indexedJump.rank ≤ x.kind.rank
  consecutive : ∀ r queue, s.queue.pop? = some (r, queue) → r.isProbe →
    e.process r { s with queue := queue } = .ok { s with queue := queue }
      ∨ ∃ s1, e.process r { s with queue := queue } = .ok s1
        ∧ ∃ target ahead, target.isSomewhere ∧ ∀ n s', e.follow n s1 = some s' →
          ∃ new, (e.trail n s1).filter Reference.isIndexed
            ++ s'.queue.indexed = ahead ++ ⟨.indexedJump, r.source, target, r.slot⟩
              :: .probe r.source (r.slot.advance 2) :: new

/-- Direct flow comes first in every session with an orderly queue. -/
theorem tablesLast_of_ranked (e : Explorer) (h : s.queue.Ranked) : e.TablesLast s where
  settled r queue hpop hprobe x hx := by
    have hsorted := h.pairwise_pending
    rw [ReferenceQueue.pop?_eq_some hpop, List.pairwise_cons] at hsorted
    rw [← Reference.rank_of_isIndexed (Reference.isIndexed_of_isProbe hprobe)]
    exact hsorted.1 x hx
  consecutive r queue hpop hprobe := by
    have hpopped := h.pop? hpop
    have hread := readSlot_slotRead e { s with queue := queue } r
    have hprocess : e.process r { s with queue := queue }
        = .ok (e.readSlot r { s with queue := queue }) := by
      unfold process
      rw [if_pos hprobe]
    rw [hprocess]
    generalize e.readSlot r { s with queue := queue } = s1 at hread
    cases hread with
    | refused => exact Or.inl rfl
    | accepted word hword hlimit hfree hin hlanding hself =>
        generalize (⟨r.source.segment, Int32.ofNat (littleEndian word)⟩ : Address) = target at *
        refine Or.inr ⟨_, rfl, target, queue.indexed, Image.isSomewhere_of_contains hin,
          fun n s' hfollow => ?_⟩
        have hranked := hpopped.push ⟨.indexedJump, r.source, target, r.slot⟩
        rcases trail_indexed (hranked.push _) hfollow with ⟨-, new, hnew⟩
        refine ⟨new, hnew.trans ?_⟩
        -- Both references lead through a table, so both stand at the end of that part.
        have hboth : (({ s with queue := queue } : Session).takeSlot r.source r.slot
            target).queue.indexed = queue.indexed ++
              [⟨.indexedJump, r.source, target, r.slot⟩, .probe r.source (r.slot.advance 2)] := by
          simp only [Session.takeSlot, Session.enqueue]
          rw [hranked.indexed_push, hpopped.indexed_push, List.append_assoc]
          rfl
        rw [hboth, List.append_assoc]
        rfl

end Explorer

section Turns

variable {e : Explorer} {s s' : Session} {source : Address} {r : Reference}
  {queue : ReferenceQueue}

/-- A table that was read under a limit could have been read under a greater one. -/
theorem TableOf.mono {limit : Nat} {taken : List Reference} (h : TableOf limit source taken s)
    (limit' : Nat) (hle : limit ≤ limit') : TableOf limit' source taken s :=
  ⟨h.resolved, h.counted, Nat.le_trans h.limited hle, h.listed⟩

/-- A slot that is accepted under a limit is accepted under a greater one. -/
theorem TableStep.mono (h : TableStep e s s') (e' : Explorer) (himage : e'.image = e.image)
    (hle : e.limits.tableSlots ≤ e'.limits.tableSlots) : TableStep e' s s' := by
  cases h with
  | found probes h => exact .found probes h
  | ended front back r hprobe hold hnew hslots hbytes hcode =>
      exact .ended front back r hprobe hold hnew hslots hbytes hcode
  | took front back r word hprobe hold hnew hword hlimit hfree hin hslots hbytes hcode =>
      exact .took front back r word hprobe hold hnew (by rw [himage]; exact hword)
        (Nat.lt_of_lt_of_le hlimit hle) hfree (by rw [himage]; exact hin) hslots hbytes hcode

/-- An explorer with another limit on the length of blocks. -/
def Explorer.withBlockLimit (e : Explorer) (n : Nat) : Explorer :=
  { e with limits := { e.limits with blockInstructions := n } }

/-- If blocks may not have instructions, the limit makes a difference only where nothing is
    known of a target. Then the reference comes to nothing but a fall-through to that target. -/
theorem process_of_no_instructions (hzero : e.limits.blockInstructions = 0) (r : Reference)
    (s : Session) : e.process r s = (e.withBlockLimit 1).process r s
      ∨ r.target.isSomewhere ∧ e.process r s = .ok
        ((s.enqueue ⟨.fallThrough, s.previous r.target, r.target, .nowhere⟩).record r) := by
  unfold Explorer.process
  by_cases hprobe : r.isProbe
  · simp only [if_pos hprobe]
    exact Or.inl rfl
  · simp only [if_neg hprobe]
    by_cases htarget : r.target.isSomewhere
    · simp only [htarget, Bool.not_true, Bool.false_eq_true, if_false, true_and]
      unfold Explorer.visit
      by_cases hin : e.image.contains r.target
      · simp only [Explorer.withBlockLimit, hin, Bool.not_true, Bool.false_eq_true, if_false]
        -- Only where nothing is known is a block begun, and it is full before its first
        -- instruction.
        cases (s.bytes.get r.target).kind with
        | unknown =>
            right
            simp only [Explorer.decodeBlock, hzero, Explorer.decodeStretch, Except.map,
              Explorer.closeBlock, if_true]
        | code => exact Or.inl rfl
        | data => exact Or.inl rfl
        | padding => exact Or.inl rfl
      · simp only [Explorer.withBlockLimit, hin, Bool.not_false, if_true, true_or]
    · simp only [htarget, Bool.not_false, if_true, true_or]

/-- What following a reference does to tables, and that it keeps the stores laid out and the
    queue in order, whatever the limits are. -/
theorem process_tableStep (hpop : s.queue.pop? = some (r, queue)) (hranked : s.queue.Ranked)
    (hlaid : LaidOut e.image e.context { s with queue := queue })
    (hprocess : e.process r { s with queue := queue } = .ok s') :
    LaidOut e.image e.context s' ∧ s'.queue.Ranked ∧ TableStep e s s' := by
  -- With room for an instruction the step is known, and it is used for two explorers below.
  have hallowed : ∀ {e : Explorer}, LaidOut e.image e.context { s with queue := queue } →
      1 ≤ e.limits.blockInstructions → e.process r { s with queue := queue } = .ok s' →
      LaidOut e.image e.context s' ∧ s'.queue.Ranked ∧ TableStep e s s' := by
    intro e hlaid hlimit hprocess
    have hf := process_followed hlaid hlimit hprocess
    exact ⟨hf.laidOut hlaid, hf.tableStep hpop hranked hlaid⟩
  by_cases hlimit : 1 ≤ e.limits.blockInstructions
  · exact hallowed hlaid hlimit hprocess
  · have hzero : e.limits.blockInstructions = 0 := by omega
    rcases process_of_no_instructions hzero r { s with queue := queue } with
      hsame | ⟨htarget, hfull⟩
    · -- The limit makes no difference, so there might as well be room for an instruction.
      rw [hsame] at hprocess
      have hone := hallowed (e := e.withBlockLimit 1) hlaid (Nat.le_refl 1) hprocess
      exact ⟨hone.1, hone.2.1, hone.2.2.mono e rfl (Nat.le_refl _)⟩
    · rw [hfull] at hprocess
      cases hprocess
      have hpopped := hranked.pop? hpop
      have hanchored : r.isAnchored := by
        rw [Reference.isAnchored, htarget, Bool.or_true]
      refine ⟨hlaid.congr ?_ ?_ ?_, ?_, .found [] (.of_eq ?_ ?_ ?_ ?_)⟩
      · simp only [Session.record_stores]
        rfl
      · simp only [Session.record_stores]
        rfl
      · simp only [Session.record_stores]
        rfl
      · simp only [Session.record_stores]
        exact hpopped.push _
      · -- The fall-through leads through no table, and the reference itself stays in the row.
        have hrow := Session.tableReferences_enqueue { s with queue := queue } hpopped
          ⟨.fallThrough, ({ s with queue := queue } : Session).previous r.target, r.target,
            .nowhere⟩
        have hlog := s.tableReferences_pop_record hpop hanchored (by rfl) hrow
        exact hlog.trans (List.append_nil _)
      · exact Session.record_tableSlots _ _
      · simp only [Session.record_stores]
        rfl
      · simp only [Session.record_stores]
        rfl

/-- How far the tables of a session have been read, if the limits may have changed meanwhile. A user
    may have queued references that seem to lead through a table, but these have no source.
    Otherwise it is `TableOf`, with some limit for each table. -/
structure Session.InTurn (s : Session) : Prop where
  ranked : s.queue.Ranked
  rooted : ∀ r ∈ s.tableReferences, r.isProbe → r.source.isSomewhere
  tables : ∀ source : Address, source.isSomewhere → ∃ limit taken, TableOf limit source taken s

/-- No table has been found yet. -/
theorem Session.inTurn_fresh : Session.fresh.InTurn where
  ranked := ReferenceQueue.ranked_empty
  rooted := by
    intro r hr
    cases hr
  tables := by
    intro source _
    rcases (Session.blank_fresh.tabled .empty 0).tables source with ⟨taken, htable⟩
    exact ⟨0, taken, htable⟩

/-- An entry point that is queued belongs to no table. -/
theorem Session.InTurn.enqueue (h : s.InTurn) {entry : Address} (hentry : entry.isSomewhere)
    (kind : ReferenceKind) : (s.enqueue ⟨kind, .nowhere, entry, .nowhere⟩).InTurn where
  ranked := h.ranked.push _
  rooted := by
    intro r hr hprobe
    rw [s.tableReferences_enqueue h.ranked, List.mem_append] at hr
    rcases hr with hr | hr
    · exact h.rooted r hr hprobe
    · -- It has a target, so it is no slot that is to be read.
      rw [List.mem_singleton.mp (List.mem_filter.mp hr).1] at hprobe
      exact absurd hentry (Reference.not_isSomewhere_of_isProbe hprobe)
  tables := by
    intro source hsource
    rcases h.tables source hsource with ⟨limit, taken, hresolved, hcounted, hlimited, hlisted⟩
    refine ⟨limit, taken, hresolved, hcounted, hlimited, ?_⟩
    -- The reference has no source, so it is in the row of no jump.
    have hother : ¬ Address.nowhere = source := by
      intro heq
      rw [← heq] at hsource
      exact absurd hsource (by decide)
    have hrow : (s.enqueue ⟨kind, .nowhere, entry, .nowhere⟩).tableReferences.filter
        (·.source = source) = s.tableReferences.filter (·.source = source) := by
      rw [s.tableReferences_enqueue h.ranked, List.filter_append, List.filter_filter]
      simp [hother]
    rw [hrow]
    exact hlisted

/-- A step keeps tables in turn. The slots it finds have a source, and those it reads go to a table
    that has been read in turn before. -/
theorem Session.InTurn.step {image : Image} {context : DecodeContext} (h : s.InTurn)
    (hlaid : LaidOut image context s') (hranked : s'.queue.Ranked) (hstep : TableStep e s s') :
    s'.InTurn where
  ranked := hranked
  rooted := by
    intro q hq hprobe
    cases hstep with
    | found probes hfound =>
        rw [hfound.references, List.mem_append] at hq
        rcases hq with hq | hq
        · exact h.rooted q hq hprobe
        · -- A first slot is found with an instruction, which has an address.
          have hmem : q ∈ probes.filter (·.source = q.source) :=
            List.mem_filter.mpr ⟨hq, decide_eq_true rfl⟩
          rcases hfound.firsts q.source with ⟨hnone, -⟩ | ⟨-, hfirst⟩
          · rw [hnone] at hmem
            cases hmem
          · rw [hfirst, Option.mem_toList, Option.map_eq_some_iff] at hmem
            rcases hmem with ⟨base, hbase, -⟩
            rcases Option.bind_eq_some_iff.mp hbase with ⟨i, hi, -⟩
            exact hlaid.toIndexed.isSomewhere hi
    | ended front back r hprobe' hold hnew hslots hbytes hcode =>
        -- A slot that ends its table is dropped, and all others were there before.
        refine h.rooted q ?_ hprobe
        rw [hnew] at hq
        rw [hold]
        simp only [List.mem_append, List.mem_cons] at hq ⊢
        rcases hq with hq | hq
        · exact Or.inl hq
        · exact Or.inr (Or.inr hq)
    | took front back r word hprobe' hold hnew hword hlimit hfree hin hslots hbytes hcode =>
        have hsource : r.source.isSomewhere := by
          refine h.rooted r ?_ hprobe'
          rw [hold]
          exact List.mem_append_right _ List.mem_cons_self
        rw [hnew] at hq
        simp only [List.mem_append, List.mem_cons, List.not_mem_nil, or_false] at hq
        rcases hq with (hq | hq) | rfl | rfl
        · exact h.rooted q (by rw [hold]; exact List.mem_append_left _ hq) hprobe
        · refine h.rooted q ?_ hprobe
          rw [hold]
          exact List.mem_append_right _ (List.mem_cons_of_mem _ hq)
        · exact hsource
        · exact hsource
  tables := by
    intro source hsource
    rcases h.tables source hsource with ⟨limit, taken, htable⟩
    -- Under the greater of the old limit and the new one, the step is one of a single run.
    generalize hgreater : max limit e.limits.tableSlots = greater
    have hstep' := hstep.mono ⟨e.image, e.context, ⟨greater, e.limits.blockInstructions⟩⟩ rfl
      (by simp only []; omega)
    rcases (htable.mono greater (by omega)).step hstep' with ⟨taken', htable'⟩
    exact ⟨greater, taken', htable'⟩

variable {image : Image} {context : DecodeContext} {allowed : Limits → Prop}

/-- By induction on the session. Between calls the limits may change, which is why a table is
    allowed a limit of its own. -/
theorem Explored.inTurn (h : Explored image context allowed s) : s.InTurn := by
  refine (h.keeps (P := fun s => LaidOut image context s ∧ s.InTurn)
    ⟨LaidOut.fresh, Session.inTurn_fresh⟩ ?_ ?_).2
  · intro s entry kind hs hentry
    exact ⟨hs.1.congr rfl rfl rfl, hs.2.enqueue hentry kind⟩
  · intro s limits r queue s' hs _ hpop hprocess
    have hlaid : LaidOut image context { s with queue := queue } := hs.1.congr rfl rfl rfl
    have hstep := process_tableStep (e := ⟨image, context, limits⟩) hpop hs.2.ranked hlaid hprocess
    exact ⟨hstep.1, hs.2.step hstep.1 hstep.2.1 hstep.2.2⟩

/-- When the next reference is a slot to be read, all slots of its table in front of it have
    been accepted, and what they hold has been followed and recorded. Nothing else of the table
    is pending. -/
structure Session.ReadsInTurn (s : Session) : Prop where
  followed : ∀ r queue, s.queue.pop? = some (r, queue) → r.isProbe →
    ∀ x ∈ queue.pending, x.kind = .indexedJump → x.source ≠ r.source
  recorded : ∀ r queue, s.queue.pop? = some (r, queue) → r.isProbe →
    ∃ base k, s.table? r.source = some base ∧ r.slot = base.advance (2 * k)
      ∧ (s.references.toList.filter fun x => x.kind = .indexedJump ∧ x.source = r.source).map
        (·.slot) = slotsFrom base k

/-- A slot that is next parts the row of references through tables. In front of it stands what
    has been recorded of its table, and nothing of the table stands behind. -/
theorem Session.InTurn.of_next (h : s.InTurn) (hpop : s.queue.pop? = some (r, queue))
    (hprobe : r.isProbe) : queue.indexed.filter (·.source = r.source) = []
      ∧ ∃ base k, s.table? r.source = some base ∧ r.slot = base.advance (2 * k)
        ∧ ((s.references.toList.filter Reference.isIndexed).filter (·.source = r.source)).map
          (·.slot) = slotsFrom base k := by
  -- All references through tables in one row, the recorded ones in front of the pending ones.
  have hrow : s.tableReferences = s.references.toList.filter Reference.isIndexed
      ++ r :: queue.indexed := by
    have hindexed := Explorer.indexed_of_pop? hpop
    rw [List.filter_cons_of_pos (Reference.isIndexed_of_isProbe hprobe)] at hindexed
    rw [Session.tableReferences, Session.mentions, List.filter_append]
    exact congrArg _ hindexed
  have hsource : r.source.isSomewhere := by
    refine h.rooted r ?_ hprobe
    rw [hrow]
    exact List.mem_append_right _ List.mem_cons_self
  rcases h.tables r.source hsource with ⟨limit, taken, htable⟩
  rcases htable.of_probe hprobe hrow with ⟨hfront, hback, base, hbase, hslots, hslot⟩
  rw [← hfront] at hslots hslot
  exact ⟨hback, base, _, hbase, hslot, hslots⟩

/-- What `of_next` says about the row, said of the queue and of the log. -/
theorem Explored.readsInTurn (h : Explored image context allowed s) : s.ReadsInTurn where
  followed r queue hpop hprobe x hx hkind heq := by
    have hmem : x ∈ queue.indexed.filter (·.source = r.source) :=
      List.mem_filter.mpr ⟨List.mem_filter.mpr ⟨hx, decide_eq_true hkind⟩, decide_eq_true heq⟩
    rw [(h.inTurn.of_next hpop hprobe).1] at hmem
    cases hmem
  recorded r queue hpop hprobe := by
    rcases (h.inTurn.of_next hpop hprobe).2 with ⟨base, k, hbase, hslot, hslots⟩
    refine ⟨base, k, hbase, hslot, ?_⟩
    rw [← hslots, List.filter_filter]
    refine congrArg _ (List.filter_congr fun x _ => ?_)
    rw [Reference.isIndexed, Bool.and_comm, Bool.decide_and]

end Turns

/-- The queue serves every history of pushes and pops by rank and arrival, so pushing and then
    popping all is a stable sort by rank. A run from any session whose queue has such a history
    reads a slot of a table only when nothing more certain is pending, and follows what the slot
    holds before it reads the one behind. In a session that exploring leads to, all that was
    found in the table so far has been followed by then. -/
theorem direct_flow_first :
    (∀ events, Served events)
      ∧ (∀ rs : List Reference, (Service.ofHistory
        (rs.map .push ++ List.replicate rs.length .pop)).served = rs.mergeSort byRank)
      ∧ (∀ (e : Explorer) (events : List QueueEvent) (n : Nat) (s s' : Session),
        s.queue = (Service.ofHistory events).queue → e.follow n s = some s' → e.TablesLast s')
      ∧ ∀ (image : Image) (context : DecodeContext) (allowed : Limits → Prop) (s : Session),
        Explored image context allowed s → s.ReadsInTurn := by
  refine ⟨served_ofHistory, served_pushes, fun e events n s s' hqueue hfollow => ?_,
    fun image context allowed s h => h.readsInTurn⟩
  have hranked := (Service.waits_ofHistory events).ranked
  rw [← hqueue] at hranked
  exact e.tablesLast_of_ranked (Explorer.trail_indexed hranked hfollow).1

/-- Five steps into a table with two entries its second slot is next. The first entry and the
    jump it leads to have been followed by then. -/
theorem direct_flow_first_caseJump :
    let e : Explorer := ⟨caseJump, {}, {}⟩
    let entry : Reference := ⟨.entry, .nowhere, ⟨0, 0⟩, .nowhere⟩
    (∃ paused outcome, e.analyze (fun n => n = 5) ⟨0, 0⟩ .entry .fresh = .ok (paused, outcome)
        ∧ paused.queue.pop?.map (·.1) = some (.probe ⟨0, 0⟩ ⟨0, 7⟩) ∧ paused.ReadsInTurn)
      ∧ (∃ s', e.follow 5 (Session.fresh.enqueue entry) = some s'
        ∧ s'.queue.pop?.any (·.1.isProbe) ∧ e.TablesLast s')
      ∧ Served [.push entry, .pop, .push (.probe ⟨0, 0⟩ ⟨0, 7⟩), .push entry, .pop] := by
  intro e entry
  rcases direct_flow_first with ⟨hserved, -, hlast, hinTurn⟩
  have hpaused : (e.analyze (fun n => n = 5) ⟨0, 0⟩ .entry .fresh).toOption.any
      (fun x => x.1.queue.pop?.map (·.1) = some (.probe ⟨0, 0⟩ ⟨0, 7⟩)) = true := by
    decide +kernel
  have hprobe : (e.follow 5 (Session.fresh.enqueue entry)).any
      (fun s' => s'.queue.pop?.any (·.1.isProbe)) := by decide +kernel
  refine ⟨?_, ?_, hserved _⟩
  · rcases exists_ok_of_any hpaused with ⟨⟨paused, outcome⟩, hrun, hnext⟩
    have hfresh : Explored caseJump {} (fun _ => True) .fresh := .fresh
    refine ⟨paused, outcome, hrun, of_decide_eq_true hnext, ?_⟩
    exact hinTurn caseJump {} (fun _ => True) paused (hfresh.analyze {} trivial _ _ _ hrun)
  · rcases (Option.any_eq_true _ _).mp hprobe with ⟨s', hfollow, hnext⟩
    exact ⟨s', hfollow, hnext, hlast e [.push entry] 5 _ s' rfl hfollow⟩

end Disasm86
