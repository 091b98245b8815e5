import Disasm86.Explore
import Disasm86.Proofs.Layout

/-!
# What Following a Reference Does

Following one reference told as one step, in a session whose stores are laid out.

The stores may refuse what exploring asks of them, and then exploring goes on with a
warning. In a session that is laid out they never do: the bytes of a fresh run can be
marked, a block around it overlaps no other, and the byte of an instruction lies in a
block that can be cut there. So the relations here list what happens, without the ways
in which it could fail, and each says all that later arguments need to know about the
moment: what was known of the target, and which run was taken over.

Two ways to end a block become one. A block that is full and a block that meets known
code both queue a reference from their last instruction to the address behind it,
since the last instruction before that address is the one just taken over.

## Main definitions

* `Misdirected`: Why a target is reported without decoding.
* `Session.close`: A session with a block around a run that has been taken over.
* `Ending`: The ways in which a block ends.
* `Visited`: The ways in which the visit of a target ends.
* `SlotRead`: The ways in which the reading of a slot ends.
* `Followed`: The ways in which following a reference ends.

## Theorems

* `close_stores`: Closing a block touches the blocks and the diagnostics only.
* `Ending.stores`: Before a block is closed, its run has been taken over.
* `closeBlock_eq_close`: A block around a fresh run is recorded.
* `splitBlock_eq`: A block is cut at one of its instructions.
* `visit_visited`: A visit ends in one of the ways that `Visited` lists.
* `readSlot_slotRead`: A slot is refused or becomes data.
* `process_followed`: Following a reference ends in one of the ways listed.
* `process_cases`: What following a reference can do to the queue and the bytes.
* `process_eq_error`: Why a reference cannot be followed.
-/

namespace Disasm86

namespace Session

variable (s : Session)

/-- Puts a block around instructions that have been taken over. A block that had to
    break off is reported. -/
def close (start : Address) (is : List Instruction) (kind : BlockKind) : Session :=
  { (if kind = .broken then
      s.report start .brokenBasicBlock ("Block ends abnormally at " ++ (Run.stop start is).text)
    else s) with blocks := s.blocks.push (Run.block start is kind) }

/-- Closing a block touches the blocks and the diagnostics only. -/
@[simp] theorem close_stores (start : Address) (is : List Instruction) (kind : BlockKind) :
    (s.close start is kind).bytes = s.bytes ∧ (s.close start is kind).code = s.code
      ∧ (s.close start is kind).blocks = s.blocks.push (Run.block start is kind)
      ∧ (s.close start is kind).queue = s.queue
      ∧ (s.close start is kind).references = s.references := by
  unfold close
  by_cases hk : kind = .broken
  · rw [if_pos hk]
    exact ⟨rfl, rfl, rfl, rfl, rfl⟩
  · rw [if_neg hk]
    exact ⟨rfl, rfl, rfl, rfl, rfl⟩

theorem takeRun_blocks (start : Address) (is : List Instruction) :
    (s.takeRun start is).blocks = s.blocks := by
  rw [takeRun_eq]

end Session

/-- Why the target of a reference is reported as soon as it is looked at. -/
inductive Misdirected (e : Explorer) (s : Session) (a : Address) :
    DiagnosticCode → String → Prop
  | outside (h : ¬ e.image.contains a) : Misdirected e s a .outOfImage "leaves the image"
  | data (h : (s.bytes.get a).kind = .data ∨ (s.bytes.get a).kind = .padding) :
      Misdirected e s a .ranIntoData "lands in data"
  | inside (h : s.bytes.get a = ⟨.code, false⟩) :
      Misdirected e s a .ranIntoCode "lands inside an instruction"

/-- The ways in which a block ends that consists of `is` and then `i`: the kind of the
    block, and the session before the block is closed. -/
inductive Ending (s : Session) (start : Address) (is : List Instruction) (i : Instruction) :
    BlockKind → Session → Prop
  /-- It runs on into the address behind it. -/
  | ranOn (ht : i.transfer? = none) :
      Ending s start is i .fallThrough ((s.takeRun start (is ++ [i])).enqueue
        ⟨.fallThrough, Run.stop start is, Run.stop start (is ++ [i]), .nowhere⟩)
  /-- Decoding could not go on behind it. -/
  | brokeOff (ht : i.transfer? = none) (code : DiagnosticCode) (message : String)
      (hreport : StopReport code message) :
      Ending s start is i .broken
        ((s.takeRun start (is ++ [i])).report (Run.stop start (is ++ [i])) code message)
  /-- Its last instruction transfers control. -/
  | transferred (t : Transfer) (ht : i.transfer? = some t) :
      Ending s start is i (.ofTransfer t)
        ((s.takeRun start (is ++ [i])).emit (Run.stop start is) i t)

/-- The ways in which the visit of a target ends. Every invariant of exploring is proved by going
    through these five, and what makes a visit end in one of them is proved once, for
    `visit_visited`. -/
inductive Visited (e : Explorer) (s : Session) (r : Reference) : Session → Prop
  /-- Nothing can be decoded at the target. -/
  | misdirected (code : DiagnosticCode) (what : String) (h : Misdirected e s r.target code what) :
      Visited e s r (Explorer.reportTarget r code what s)
  /-- A block starts at the target already. -/
  | known (id : Nat) (h : s.blocks.startingAt? r.target = some id) : Visited e s r s
  /-- The target is an inner instruction of a block, and the block is cut there. -/
  | cut (id : Nat) (whole : Block) (j : Instruction) (last : Address) (i : Instruction)
      (hget : s.blocks.get? id = some whole) (hin : whole.contains r.target)
      (hj : s.code.get? r.target = some j) (hne : whole.start ≠ r.target)
      (hi : s.code.get? last = some i) (hnext : i.next last = r.target)
      (hlast : whole.contains last) (straight : i.transfer? = none) :
      Visited e s r (({ s with blocks := s.blocks.cut id whole r.target } : Session).record
        ⟨.fallThrough, last, r.target, .nowhere⟩)
  /-- Not even one instruction can be taken over. -/
  | stuck (code : DiagnosticCode) (message : String)
      (h : Obstacle e s r.target code message)
      (hunknown : (s.bytes.get r.target).kind = .unknown) :
      Visited e s r (s.report r.target code message)
  /-- A block has been decoded at the target. -/
  | decoded (is : List Instruction) (i : Instruction) (kind : BlockKind) (s' : Session)
      (fresh : Fresh e s r.target (is ++ [i])) (straight : ∀ j ∈ is, j.transfer? = none)
      (hlen : (is ++ [i]).length ≤ e.limits.blockInstructions)
      (h : Ending s r.target is i kind s') :
      Visited e s r (s'.close r.target (is ++ [i]) kind)

/-- Until a block is closed, only the run that fills it has been taken over. -/
theorem Ending.stores {s s' : Session} {start : Address} {is : List Instruction}
    {i : Instruction} {kind : BlockKind} (h : Ending s start is i kind s') :
    s'.bytes = (s.takeRun start (is ++ [i])).bytes
      ∧ s'.code = (s.takeRun start (is ++ [i])).code ∧ s'.blocks = s.blocks := by
  have hblocks := s.takeRun_blocks start (is ++ [i])
  -- What is queued, reported or emitted touches other stores.
  cases h with
  | ranOn ht => exact ⟨rfl, rfl, hblocks⟩
  | brokeOff ht code message hreport => exact ⟨rfl, rfl, hblocks⟩
  | transferred t ht =>
      simp only [Session.emit_stores, hblocks, and_self]

section Blocks

variable {e : Explorer} {image : Image} {context : DecodeContext} {s s' : Session}
  {a start last : Address} {is : List Instruction} {i j : Instruction} {id : Nat} {whole : Block}

/-- A block around a fresh run is recorded, whatever became of the session besides its
    blocks while the run was taken over. -/
theorem closeBlock_eq_close (h : LaidOut e.image e.context s) (hrun : Fresh e s start is)
    (hne : is ≠ []) (hblocks : s'.blocks = s.blocks) (kind : BlockKind) :
    Explorer.closeBlock start ⟨s', Run.stop start is, kind⟩ = s'.close start is kind := by
  have hstop := Run.toInt_stop hrun.run
  rcases Run.bounds hrun.run hne with ⟨h0, hend, hpos⟩
  have hleft : Run.stop start is ≠ start := by
    intro heq
    rw [heq] at hstop
    omega
  have hdistance : (Run.stop start is).offset.toInt - start.offset.toInt = Run.size is := by
    omega
  have hrange : Block.ofRange start (Run.stop start is) kind = .ok (Run.block start is kind) := by
    unfold Block.ofRange Address.distanceFrom?
    rw [if_pos (Run.stop_segment start is), hdistance]
    exact if_pos (by omega)
  -- The bytes of the run were unknown, so the block meets none and is not refused.
  have hadd : s'.blocks.refusal? (Run.block start is kind) = none := by
    have hlength := Run.toInt_block_length hrun.run hne kind
    rw [hblocks]
    refine h.wellFormed.refusal?_eq_none (by omega) ?_ ?_
    · rw [hlength]
      exact Int.lt_of_le_of_lt hend (by decide)
    · intro id c a hget hin hnew
      exact h.not_spans_of_fresh hrun hget hin ((Run.contains_block hrun.run hne kind).mp hnew)
  unfold Explorer.closeBlock Session.close Session.addBlock
  simp only [if_neg hleft, hrange]
  by_cases hk : kind = .broken
  · simp only [if_pos hk]
    rw [show (s'.report _ _ _).blocks = s'.blocks from rfl, hadd]
  · simp only [if_neg hk]
    rw [hadd]

/-- In front of an inner instruction of a block stands a straight one. -/
theorem LaidOut.exists_before (h : LaidOut image context s)
    (hget : s.blocks.get? id = some whole) (hin : whole.contains a)
    (hj : s.code.get? a = some j) (hne : whole.start ≠ a) :
    ∃ last i, s.code.get? last = some i ∧ i.next last = a ∧ whole.contains last
      ∧ i.transfer? = none := by
  rcases h.filled hget with ⟨is, l, hfill⟩
  rcases hfill.cut h.toIndexed hj hin hne with ⟨front, p, back, his, hstop, hhead, -⟩
  refine ⟨Run.stop whole.start front, p, ?_, ?_, ?_, ?_⟩
  · exact (isRun_append.mp hhead.run).2.1
  · rw [Run.stop_append] at hstop
    exact hstop
  · have hspan := Run.spans_last (h.isRun_image hhead.run)
    exact ((Block.contains_headBefore hin hne).mp (hhead.contains_iff.mpr hspan)).1
  · refine hfill.straight p ?_
    rw [his]
    exact List.mem_append_right front (List.mem_cons_self)

/-- Cutting a block at one of its inner instructions records that the instruction in
    front of the cut runs into the one behind it. -/
theorem splitBlock_eq (h : LaidOut image context s) (hget : s.blocks.get? id = some whole)
    (hin : whole.contains a) (hne : whole.start ≠ a) (hi : s.code.get? last = some i)
    (hnext : i.next last = a) :
    Explorer.splitBlock a s = ({ s with blocks := s.blocks.cut id whole a } : Session).record
      ⟨.fallThrough, last, a, .nowhere⟩ := by
  have hlast : s.code.lastBefore? a = some (last, i) := by
    rw [← hnext]
    exact h.lastBefore?_next hi
  unfold Explorer.splitBlock
  simp only [h.wellFormed.split_eq_ok hget hin hne, hlast]

/-- The block that is decoded at a target of which nothing is known. The five outcomes of a stretch
    come to two kinds of visit here: one that is stuck at once, and one with a block. -/
theorem decodeBlock_visited (h : LaidOut e.image e.context s)
    (hlimit : 1 ≤ e.limits.blockInstructions) (r : Reference)
    (hunknown : (s.bytes.get r.target).kind = .unknown)
    (hdecode : e.decodeBlock r.target s = .ok s') : Visited e s r s' := by
  rcases except_map_eq_ok.mp hdecode with ⟨stretch, hstretch, rfl⟩
  have hout := decodeStretch_outcome e e.limits.blockInstructions r.target s
  rw [hstretch] at hout
  -- Whichever way a block ends, closing it succeeds.
  have hclose : ∀ {is i kind s'}, Fresh e s r.target (is ++ [i]) →
      (∀ j ∈ is, j.transfer? = none) → (is ++ [i]).length ≤ e.limits.blockInstructions →
      Ending s r.target is i kind s' → Visited e s r
        (Explorer.closeBlock r.target ⟨s', Run.stop r.target (is ++ [i]), kind⟩) := by
    intro is i kind s' fresh straight hlen hending
    have hne : is ++ [i] ≠ [] := by simp
    rw [closeBlock_eq_close h fresh hne hending.stores.2.2]
    exact .decoded is i kind s' fresh straight hlen hending
  have hparts : ∀ {is i}, (∀ j ∈ is ++ [i], Instruction.transfer? j = none) →
      (∀ j ∈ is, j.transfer? = none) ∧ i.transfer? = none := fun hall =>
    ⟨fun j hj => hall j (List.mem_append_left _ hj),
      hall _ (List.mem_append_right _ List.mem_cons_self)⟩
  cases hout with
  | full is fresh straight hlen =>
      rcases List.eq_nil_or_concat is with rfl | ⟨front, i, rfl⟩
      · -- An empty block is not full, because the limit is at least one.
        rw [List.length_nil] at hlen
        omega
      · -- The reference of a full block leaves the instruction that stands last in the index.
        rw [List.concat_eq_append] at *
        have hindexed := h.toIndexed.takeRun fresh
        have hlast := (isRun_append.mp (Session.isRun_takeRun s fresh.run)).2.1
        have hprevious : (s.takeRun r.target (front ++ [i])).previous
            (Run.stop r.target (front ++ [i])) = Run.stop r.target front := by
          rw [Run.stop_append, Session.previous]
          simp only [Run.stop, hindexed.lastBefore?_next hlast, Option.elim_some]
        rw [hprevious]
        exact hclose fresh (hparts straight).1 (Nat.le_of_eq hlen) (.ranOn (hparts straight).2)
  | blocked is fresh straight hlen code message hobstacle =>
      rcases List.eq_nil_or_concat is with rfl | ⟨front, i, rfl⟩
      · unfold Explorer.closeBlock
        simp only [Run.stop, if_true]
        exact .stuck code message hobstacle hunknown
      · rw [List.concat_eq_append] at *
        exact hclose fresh (hparts straight).1 (Nat.le_of_lt hlen)
          (.brokeOff (hparts straight).2 code message hobstacle.stopReport)
  | data is fresh straight hlen hsome hkind =>
      rcases List.eq_nil_or_concat is with rfl | ⟨front, i, rfl⟩
      · exact absurd rfl hsome
      · rw [List.concat_eq_append] at *
        exact hclose fresh (hparts straight).1 hlen (.brokeOff (hparts straight).2 _ _ .data)
  | met is i fresh straight hlen hkind =>
      exact hclose fresh (hparts straight).1 (by rw [List.length_append]; exact hlen)
        (.ranOn (hparts straight).2)
  | transferred is i t fresh straight ht hlen =>
      exact hclose fresh straight (by rw [List.length_append]; exact hlen) (.transferred t ht)

/-- The visit of a target that comes to an end does so in one of the ways that `Visited`
    lists. -/
theorem visit_visited (h : LaidOut e.image e.context s)
    (hlimit : 1 ≤ e.limits.blockInstructions) (r : Reference) (hvisit : e.visit r s = .ok s') :
    Visited e s r s' := by
  unfold Explorer.visit at hvisit
  by_cases hcontains : e.image.contains r.target
  · simp only [hcontains, Bool.not_true, Bool.false_eq_true, if_false] at hvisit
    cases hkind : (s.bytes.get r.target).kind with
    | unknown =>
        simp only [hkind] at hvisit
        exact decodeBlock_visited h hlimit r hkind hvisit
    | data =>
        simp only [hkind] at hvisit
        cases hvisit
        exact .misdirected _ _ (.data (Or.inl hkind))
    | padding =>
        simp only [hkind] at hvisit
        cases hvisit
        exact .misdirected _ _ (.data (Or.inr hkind))
    | code =>
        simp only [hkind] at hvisit
        -- A block starts at the target, or the target is inside of an instruction, or a block is
        -- cut.
        cases hstart : s.blocks.startingAt? r.target with
        | some id =>
            simp only [hstart, Option.isSome_some, if_true] at hvisit
            cases hvisit
            exact .known id hstart
        | none =>
            simp only [hstart, Option.isSome_none, Bool.false_eq_true, if_false] at hvisit
            have hmark : ∀ lead, (s.bytes.get r.target).lead = lead →
                s.bytes.get r.target = ⟨.code, lead⟩ := by
              intro lead hlead
              rw [← hkind, ← hlead]
            cases hlead : (s.bytes.get r.target).lead with
            | false =>
                simp only [hlead, Bool.not_false, if_true] at hvisit
                cases hvisit
                exact .misdirected _ _ (.inside (hmark false hlead))
            | true =>
                simp only [hlead, Bool.not_true, Bool.false_eq_true, if_false] at hvisit
                -- The byte leads an instruction, and that instruction lies in a block.
                rcases h.get_eq_lead_iff.mp (hmark true hlead) with ⟨j, hj⟩
                rcases h.enclosed hkind with ⟨id, whole, hget, hin⟩
                have hne : whole.start ≠ r.target := by
                  intro heq
                  rw [h.wellFormed.startingAt?_iff.mpr ⟨whole, hget, heq⟩] at hstart
                  cases hstart
                rcases h.exists_before hget hin hj hne with ⟨last, i, hi, hnext, hlast, ht⟩
                rw [splitBlock_eq h hget hin hne hi hnext] at hvisit
                cases hvisit
                exact .cut id whole j last i hget hin hj hne hi hnext hlast ht
  · simp only [hcontains, Bool.not_false, if_true] at hvisit
    cases hvisit
    exact .misdirected _ _ (.outside hcontains)

end Blocks

/-- Takes a slot into the table of the jump at `source`. -/
def Session.takeSlot (s : Session) (source slot target : Address) : Session :=
  (({ s with
      tableSlots := s.tableSlots.insert source (s.tableSlots.getD source 0 + 1)
      bytes := s.bytes.put slot .data 2 } : Session).enqueue
    ⟨.indexedJump, source, target, slot⟩).enqueue (.probe source (slot.advance 2))

/-- The ways in which the reading of a slot ends. -/
inductive SlotRead (e : Explorer) (s : Session) (r : Reference) : Session → Prop
  /-- The table has ended. -/
  | refused : SlotRead e s r s
  /-- The slot belongs to the table. -/
  | accepted (word : List UInt8) (hword : e.image.bytes? r.slot 2 = some word)
      (hlimit : s.tableSlots.getD r.source 0 < e.limits.tableSlots)
      (hfree : ∀ a, r.slot.Spans 2 a → (s.bytes.get a).kind = .unknown)
      (hin : e.image.contains ⟨r.source.segment, Int32.ofNat (littleEndian word)⟩)
      (hlanding : Explorer.isPlausibleTarget
        (s.bytes.get ⟨r.source.segment, Int32.ofNat (littleEndian word)⟩))
      (hself : ⟨r.source.segment, Int32.ofNat (littleEndian word)⟩ ≠ r.slot) :
      SlotRead e s r
        (s.takeSlot r.source r.slot ⟨r.source.segment, Int32.ofNat (littleEndian word)⟩)

/-- The reading of a slot ends in one of these ways. Nothing is assumed of the session:
    a slot is only taken if its bytes can be marked. -/
theorem readSlot_slotRead (e : Explorer) (s : Session) (r : Reference) :
    SlotRead e s r (e.readSlot r s) := by
  unfold Explorer.readSlot
  by_cases hlimit : e.limits.tableSlots ≤ s.tableSlots.getD r.source 0
  · rw [if_pos hlimit]
    exact .refused
  · rw [if_neg hlimit]
    cases hword : e.image.bytes? r.slot 2 with
    | none => exact .refused
    | some word =>
        rcases Image.bytes?_eq_some hword with ⟨h0, hend, -⟩
        simp only []
        split
        · rename_i hall
          simp only [Bool.and_eq_true, bne_iff_ne] at hall
          rcases hall with ⟨⟨⟨hfree, hin⟩, hlanding⟩, hself⟩
          have hfree' := (s.bytes.isUnknownBetween_advance h0 (by omega)).mp hfree
          -- The bytes are unknown, so marking them cannot fail.
          have hmark : s.bytes.mark r.slot (r.slot.advance 2) .data
              = .ok (s.bytes.put r.slot .data 2) :=
            s.bytes.mark_advance h0 (by omega) (by decide) (by decide) hfree'
          unfold Explorer.acceptSlot
          simp only [hmark]
          exact .accepted word hword (by omega) hfree' hin hlanding hself
        · exact .refused

/-- The ways in which following a reference ends, after it has been taken out of the
    queue. -/
inductive Followed (e : Explorer) (s : Session) (r : Reference) : Session → Prop
  /-- The reference stood for a slot of a table. -/
  | slot (hprobe : r.isProbe) (s' : Session) (h : SlotRead e s r s') : Followed e s r s'
  /-- The target is computed when the program runs. -/
  | dynamic (hprobe : ¬ r.isProbe) (htarget : ¬ r.target.isSomewhere) :
      Followed e s r ((s.report r.source .dynamicTarget
        (r.kind.name ++ " target is computed at run time")).record r)
  /-- The target has been visited. -/
  | visited (htarget : r.target.isSomewhere) (s' : Session) (h : Visited e s r s') :
      Followed e s r (s'.record r)

section Processing

variable {e : Explorer} {s s' : Session} {r : Reference}

/-- A reference that can be followed is followed in one of the ways listed. -/
theorem process_followed (h : LaidOut e.image e.context s)
    (hlimit : 1 ≤ e.limits.blockInstructions) (hprocess : e.process r s = .ok s') :
    Followed e s r s' := by
  unfold Explorer.process at hprocess
  by_cases hprobe : r.isProbe
  · rw [if_pos hprobe] at hprocess
    cases hprocess
    exact .slot hprobe _ (readSlot_slotRead e s r)
  · rw [if_neg hprobe] at hprocess
    by_cases htarget : r.target.isSomewhere
    · simp only [htarget, Bool.not_true, Bool.false_eq_true, if_false] at hprocess
      rcases except_map_eq_ok.mp hprocess with ⟨visited, hvisit, rfl⟩
      exact .visited htarget _ (visit_visited h hlimit r hvisit)
    · simp only [htarget, Bool.not_false, if_true] at hprocess
      cases hprocess
      exact .dynamic hprobe htarget

/-- Cutting a block leaves the queue and the bytes alone, whether it succeeds or not. -/
theorem splitBlock_stores (cut : Address) (s : Session) :
    (Explorer.splitBlock cut s).queue = s.queue ∧ (Explorer.splitBlock cut s).bytes = s.bytes := by
  unfold Explorer.splitBlock
  cases s.blocks.split cut with
  | error cause => exact ⟨rfl, rfl⟩
  | ok result =>
      simp only []
      split
      · exact ⟨rfl, rfl⟩
      · simp only [Session.record_stores, and_self]

-- What follows holds of any session, laid out or not. The cases of the target are gone
-- through here, and what is said of the queue, the workload or failing refers to this.
/-- A visit leaves the queue and the bytes alone, unless it decodes a block where nothing is
    known. -/
theorem visit_cases (e : Explorer) (r : Reference) (s : Session) :
    (∃ s', e.visit r s = .ok s' ∧ s'.queue = s.queue ∧ s'.bytes = s.bytes)
      ∨ (s.bytes.get r.target).kind = .unknown
        ∧ e.visit r s = e.decodeBlock r.target s := by
  unfold Explorer.visit
  split
  · exact Or.inl ⟨_, rfl, rfl, rfl⟩
  · simp only []
    split
    · exact Or.inl ⟨_, rfl, rfl, rfl⟩
    · exact Or.inl ⟨_, rfl, rfl, rfl⟩
    · -- A target that is known to be code is not decoded.
      split
      · exact Or.inl ⟨_, rfl, rfl, rfl⟩
      · split
        · exact Or.inl ⟨_, rfl, rfl, rfl⟩
        · exact Or.inl ⟨_, rfl, splitBlock_stores r.target s⟩
    · rename_i hkind
      exact Or.inr ⟨hkind, rfl⟩

/-- A reference stands for a slot, or leaves the queue and the bytes alone, or leads to the
    decoding of a block where nothing is known. -/
theorem process_cases (e : Explorer) (r : Reference) (s : Session) :
    e.process r s = .ok (e.readSlot r s)
      ∨ (∃ s', e.process r s = .ok s' ∧ s'.queue = s.queue ∧ s'.bytes = s.bytes)
      ∨ (s.bytes.get r.target).kind = .unknown
        ∧ e.process r s = (e.decodeBlock r.target s).map (·.record r) := by
  unfold Explorer.process
  split
  · exact Or.inl rfl
  · right
    split
    · exact Or.inl ⟨_, rfl, by simp only [Session.record_stores, Session.report, and_self]⟩
    · rcases visit_cases e r s with ⟨s', hvisit, hqueue, hbytes⟩ | ⟨hkind, hvisit⟩
      · rw [hvisit]
        exact Or.inl ⟨_, rfl, by simp only [Session.record_stores, hqueue, hbytes, and_self]⟩
      · rw [hvisit]
        exact Or.inr ⟨hkind, rfl⟩

/-- A reference cannot be followed only if decoding at its target comes to an instruction that
    overlaps something known and has no text. Nothing was known of the target itself. -/
theorem process_eq_error {cause : Overflow} (hprocess : e.process r s = .error cause) :
    (s.bytes.get r.target).kind = .unknown ∧ ∃ is i, Fresh e s r.target is
      ∧ Unnamable e (s.takeRun r.target is) (Run.stop r.target is) i cause := by
  have hdecode : (s.bytes.get r.target).kind = .unknown
      ∧ e.decodeBlock r.target s = .error cause := by
    rcases process_cases e r s with hcase | ⟨s', hcase, -⟩ | ⟨hkind, hcase⟩
    · rw [hcase] at hprocess
      cases hprocess
    · rw [hcase] at hprocess
      cases hprocess
    · rw [hcase] at hprocess
      exact ⟨hkind, except_map_eq_error.mp hprocess⟩
  have hout := decodeStretch_outcome e e.limits.blockInstructions r.target s
  rw [except_map_eq_error.mp hdecode.2] at hout
  cases hout with
  | unnamed is fresh straight hlen i _ hunnamable => exact ⟨hdecode.1, is, i, fresh, hunnamable⟩

end Processing

end Disasm86
