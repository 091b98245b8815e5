import Disasm86.Proofs.Accounting

/-!
# Exploring Stays in Its Segments

Exploring never leaves the segments it was started in. Every address that it forms is made
out of another by moving inside a segment: the end of an instruction, the target of a
branch, the first slot of a table and the slots behind it. The words of a table are offsets
in the segment of the jump that reads it. So if all pending references lie in some segments,
then so do those that following one of them makes.

Only the bytes and the references are carried along. An indexed instruction has bytes that
are marked, and a block has a first byte, so where these two lie need not be kept.

An end of a reference that is unknown lies in no segment, and does not have to.

## Main definitions

* `Address.LiesIn`: An address is unknown or lies in one of some segments.
* `Reference.LiesIn`: All ends of a reference do.
* `Session.LiesIn`: All marked bytes and all references of a session do.

## Theorems

* `segment_of_branchTarget?`, `segment_of_jumpTableSlot?`: Addresses named by operands.
* `liesIn_of_mem_emission`: The references of an instruction lie in its segment.
* `Visited.liesIn`, `SlotRead.liesIn`: Nothing leaves the segments of a session.
* `Followed.liesIn`: Following a reference stays in the segments.
-/

namespace Disasm86

/-- The address is unknown, or its segment is one of those listed. -/
def Address.LiesIn (numbers : List Int32) (a : Address) : Prop :=
  a = .nowhere ∨ a.segment ∈ numbers

/-- Both ends and the slot of a reference lie in the segments, as far as they are known. -/
structure Reference.LiesIn (numbers : List Int32) (r : Reference) : Prop where
  source : r.source.LiesIn numbers
  target : r.target.LiesIn numbers
  slot : r.slot.LiesIn numbers

/-- All bytes that are known and all references lie in the segments. Bytes of other segments may
    well be there; exploring has not come upon them, because neither branches nor tables lead out of
    a segment. -/
structure Session.LiesIn (numbers : List Int32) (s : Session) : Prop where
  bytes : ∀ {a}, (s.bytes.get a).kind ≠ .unknown → a.segment ∈ numbers
  references : ∀ {r}, r ∈ s.mentions → r.LiesIn numbers

/-- An address that is known lies in one of the segments. -/
theorem Address.LiesIn.segment_mem {numbers : List Int32} {a : Address} (h : a.LiesIn numbers)
    (hsome : a.isSomewhere) : a.segment ∈ numbers := by
  rcases h with rfl | hmem
  · exact absurd hsome (by decide)
  · exact hmem

section Instructions

variable {numbers : List Int32} {a target slot : Address} {i : Instruction} {t : Transfer}
  {r : Reference}

/-- A branch stays in its segment, whatever its displacement is. -/
theorem segment_of_branchTarget? (h : i.branchTarget? a = some target) :
    target.segment = a.segment := by
  unfold Instruction.branchTarget? at h
  rcases List.exists_of_findSome?_eq_some h with ⟨operand, -, hoperand⟩
  cases operand with
  | relative displacement size field =>
      rw [Option.some.injEq] at hoperand
      rw [← hoperand]
      rfl
  | _ => cases hoperand

/-- A table lies in the segment of the jump that reads it. -/
theorem segment_of_jumpTableSlot? (h : jumpTableSlot? a i = some slot) :
    slot.segment = a.segment := by
  unfold jumpTableSlot? at h
  split at h
  · split at h
    · rw [Option.some.injEq] at h
      rw [← h]
    · cases h
  · cases h

/-- All that an instruction makes known lies in its own segment. -/
theorem liesIn_of_mem_emission (ha : a.segment ∈ numbers)
    (h : r ∈ (emission a i t).filterMap Note.reference?) : r.LiesIn numbers := by
  have hnowhere : Address.nowhere.LiesIn numbers := Or.inl rfl
  have hhere : a.LiesIn numbers := Or.inr ha
  unfold emission at h
  rw [List.filterMap_append, List.mem_append] at h
  rcases h with h | h
  · by_cases hnames : t.namesTarget
    · rw [if_pos hnames, List.filterMap_append, List.mem_append] at h
      rcases h with h | h
      · -- The first slot of the table that the instruction reads.
        cases hslot : jumpTableSlot? a i with
        | none =>
            rw [hslot] at h
            cases h
        | some slot =>
            rw [hslot] at h
            rw [List.mem_singleton.mp h]
            refine ⟨hhere, hnowhere, Or.inr ?_⟩
            rw [Reference.probe, segment_of_jumpTableSlot? hslot]
            exact ha
      · -- The target that the instruction names, if the segment can hold it.
        rw [filterMap_targetEmission, List.mem_singleton] at h
        rw [h]
        refine ⟨hhere, ?_, hnowhere⟩
        unfold Instruction.staticTarget
        cases htarget : i.branchTarget? a with
        | none => exact hnowhere
        | some target =>
            rw [Option.filter_some]
            split
            · refine Or.inr ?_
              rw [Option.getD_some, segment_of_branchTarget? htarget]
              exact ha
            · exact hnowhere
    · rw [if_neg hnames] at h
      rw [List.mem_singleton.mp h]
      exact ⟨hhere, hnowhere, hnowhere⟩
  · -- The instruction behind it, if execution can go on there.
    by_cases hfalls : t.fallsThrough
    · rw [if_pos hfalls] at h
      rw [List.mem_singleton.mp h]
      exact ⟨hhere, Or.inr ha, hnowhere⟩
    · rw [if_neg hfalls] at h
      cases h

end Instructions

section Steps

variable {numbers : List Int32} {e : Explorer} {s s' : Session} {r : Reference}

/-- Only bytes and references are asked about. -/
theorem Session.LiesIn.congr (hs : s.LiesIn numbers) (hbytes : s'.bytes = s.bytes)
    (hmentions : s'.mentions = s.mentions) : s'.LiesIn numbers where
  bytes := by
    rw [hbytes]
    exact hs.bytes
  references := by
    rw [hmentions]
    exact hs.references

theorem Session.LiesIn.enqueue (hs : s.LiesIn numbers) (hr : r.LiesIn numbers) :
    (s.enqueue r).LiesIn numbers where
  bytes := hs.bytes
  references := by
    intro r' hr'
    rcases List.mem_cons.mp ((s.mentions_enqueue r).mem_iff.mp hr') with rfl | hold
    · exact hr
    · exact hs.references hold

/-- Whether a reference is kept or dropped, none comes up that does not lie in the segments. -/
theorem Session.LiesIn.record (hs : s.LiesIn numbers) (hr : r.LiesIn numbers) :
    (s.record r).LiesIn numbers where
  bytes := by
    simp only [Session.record_stores]
    exact hs.bytes
  references := by
    intro r' hr'
    by_cases hends : r.isAnchored
    · rcases List.mem_cons.mp ((s.mentions_record hends).mem_iff.mp hr') with rfl | hold
      · exact hr
      · exact hs.references hold
    · rw [s.mentions_record_nowhere hends] at hr'
      exact hs.references hr'

/-- A run lies in the segment of its first instruction. -/
theorem Session.LiesIn.takeRun {start : Address} {is : List Instruction}
    (hs : s.LiesIn numbers) (hrun : Fresh e s start is) (hstart : start.segment ∈ numbers) :
    (s.takeRun start is).LiesIn numbers where
  bytes := by
    intro a ha
    by_cases hspan : start.Spans (Run.size is) a
    · rw [hspan.1]
      exact hstart
    · rw [Session.takeRun_get_outside s hrun.run hspan] at ha
      exact hs.bytes ha
  references := by
    intro r hr
    have hsame : (s.takeRun start is).mentions = s.mentions := by
      rw [Session.takeRun_eq]
      rfl
    rw [hsame] at hr
    exact hs.references hr

/-- The end of a block mentions what its last instruction makes known, and that lies in the segment
    of the block. -/
theorem Ending.liesIn {start : Address} {is : List Instruction} {i : Instruction}
    {kind : BlockKind} (h : Ending s start is i kind s') (hrun : Fresh e s start (is ++ [i]))
    (hlast : (Run.stop start is).isSomewhere) (hs : s.LiesIn numbers)
    (hstart : start.segment ∈ numbers) : s'.LiesIn numbers := by
  have hstop : ∀ js, (Run.stop start js).segment ∈ numbers := by
    intro js
    rw [Run.stop_segment]
    exact hstart
  have htaken := hs.takeRun hrun hstart
  cases h with
  | ranOn ht => exact htaken.enqueue ⟨Or.inr (hstop is), Or.inr (hstop _), Or.inl rfl⟩
  | brokeOff ht code message hreport => exact htaken.congr rfl rfl
  | transferred t ht =>
      constructor
      · simp only [Session.emit_stores]
        exact htaken.bytes
      · intro r hr
        -- Mentioned are the references from before and those of the emission.
        have hmentions := Session.mentions_foldl_note (s.takeRun start (is ++ [i]))
          (emission (Run.stop start is) i t) fun r hr => by
            rw [eq_of_recorded_mem_emission hr]
            exact hlast
        rw [Session.emit_eq_foldl, hmentions.mem_iff, List.mem_append] at hr
        rcases hr with hnew | hold
        · exact liesIn_of_mem_emission (hstop is) hnew
        · exact htaken.references hold

/-- What a visit makes known lies in the segment of its target. -/
theorem Visited.liesIn (hlaid : LaidOut e.image e.context s) (hv : Visited e s r s')
    (htarget : r.target.segment ∈ numbers) (hs : s.LiesIn numbers) : s'.LiesIn numbers := by
  cases hv with
  | misdirected code what h => exact hs.congr rfl rfl
  | known id h => exact hs
  | cut id whole j last i hget hin hj hne hi hnext hlast straight =>
      -- The instruction in front of the cut is indexed, so its bytes are known.
      have hsource : last.segment ∈ numbers := by
        refine hs.bytes ?_
        rw [hlaid.marked hi (hlaid.spans_self hi)]
        exact fun h => by cases h
      have hcut : ({ s with blocks := s.blocks.cut id whole r.target } : Session).LiesIn numbers :=
        hs.congr rfl rfl
      exact hcut.record ⟨Or.inr hsource, Or.inr htarget, Or.inl rfl⟩
  | stuck code message h hunknown => exact hs.congr rfl rfl
  | decoded is i kind s1 fresh straight hlen hending =>
      -- What is decoded lies in the segment of the target, and its references lie there too.
      have hlast := (isRun_append.mp (Session.isRun_takeRun s fresh.run)).2.1
      have hclosed := hending.liesIn fresh
        ((hlaid.toIndexed.takeRun fresh).isSomewhere hlast) hs htarget
      refine hclosed.congr ?_ (s1.mentions_congr ?_ ?_) <;> simp only [Session.close_stores]

/-- A slot that is taken lies in the image, and so does the address that its word names. -/
theorem SlotRead.liesIn (h : SlotRead e s r s') (hr : r.LiesIn numbers)
    (hs : s.LiesIn numbers) : s'.LiesIn numbers := by
  cases h with
  | refused => exact hs
  | accepted word hword hlimit hfree hin hlanding hself =>
      rcases Image.bytes?_eq_some hword with ⟨h0, hend, hcontains⟩
      have hslot : r.slot.segment ∈ numbers := hr.slot.segment_mem
        (Image.isSomewhere_of_contains (hcontains r.slot (Address.spans_self (by decide))))
      -- A source that is unknown has a segment that no image has, so its words name nothing.
      have hsource : r.source.segment ∈ numbers := by
        rcases hr.source with hnowhere | hmem
        · rw [hnowhere] at hin
          exact absurd hin (by simp [Image.contains, Image.segment?, Address.nowhere])
        · exact hmem
      refine Session.LiesIn.enqueue (Session.LiesIn.enqueue ⟨?_, hs.references⟩ ?_) ?_
      -- The bytes of the slot become known.
      · intro a ha
        have hput := ByteMap.get_put s.bytes r.slot a .data 2 h0 (by omega)
        by_cases hspan : r.slot.Spans 2 a
        · rw [hspan.1]
          exact hslot
        · rw [if_neg hspan] at hput
          simp only [hput] at ha
          exact hs.bytes ha
      · exact ⟨hr.source, Or.inr hsource, hr.slot⟩
      · exact ⟨hr.source, Or.inl rfl, Or.inr hslot⟩

/-- Following a reference that lies in the segments stays in them. -/
theorem Followed.liesIn (hlaid : LaidOut e.image e.context s) (hf : Followed e s r s')
    (hr : r.LiesIn numbers) (hs : s.LiesIn numbers) : s'.LiesIn numbers := by
  cases hf with
  | slot hprobe s' h => exact h.liesIn hr hs
  | dynamic hprobe htarget => exact Session.LiesIn.record (hs.congr rfl rfl) hr
  | visited htarget s' hv =>
      exact (hv.liesIn hlaid (hr.target.segment_mem htarget) hs).record hr

/-- Instructions and blocks lie where their bytes do. -/
theorem Session.LiesIn.segment_mem (hs : s.LiesIn numbers) {image : Image}
    {context : DecodeContext} (hlaid : LaidOut image context s) :
    (∀ {a i}, s.code.get? a = some i → a.segment ∈ numbers)
      ∧ ∀ {id b}, s.blocks.get? id = some b → b.start.segment ∈ numbers := by
  have hcode : ∀ {a i}, s.code.get? a = some i → a.segment ∈ numbers := by
    -- An instruction marks its own bytes as code, so they are known.
    intro a i hi
    refine hs.bytes ?_
    rw [hlaid.marked hi (hlaid.spans_self hi)]
    exact fun h => by cases h
  refine ⟨hcode, fun hget => ?_⟩
  rcases hlaid.exists_first hget with ⟨i, hi⟩
  exact hcode hi

end Steps

end Disasm86
