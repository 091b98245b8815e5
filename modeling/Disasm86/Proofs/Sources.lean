import Disasm86.Proofs.Contents
import Disasm86.Proofs.Ownership
import Disasm86.Proofs.Settled

/-!
# Where References Leave Blocks

A reference leaves the last instruction of a block. When it is made, this is so because a
block ends with the instruction that transfers control, or with the one in front of a cut.
It stays so however often the block is cut afterwards: a cut is made at the start of an
instruction, so the last instruction of the whole block is also that of its tail.

References wait in the queue before they are recorded, and blocks are cut in the meantime.
So the invariant is about all references that are mentioned, not about the log alone.

## Main definitions

* `EndsBlock`: The instruction at an address is the last one of a block.
* `Session.Anchored`: References leave the ends of blocks and arrive at starts.

## Theorems

* `EndsBlock.cut`: What ends a block still does so when a block is cut.
* `Filled.endsBlock`: The last instruction of a run ends the block that it fills.
* `EndsBlock.getLast?_inRange`: The instructions of the block end with that at the address.
* `Visited.mem_mentions`: What a visit mentions for the first time leaves the end of a block.
* `Explored.anchored`: Both ends of the references of an explored session are tied to blocks.
-/

namespace Disasm86

/-- The instruction at the address is the last one of a block. -/
def EndsBlock (s : Session) (a : Address) : Prop :=
  ∃ id b i, s.blocks.get? id = some b ∧ b.contains a ∧ s.code.get? a = some i ∧ i.next a = b.stop

section Blocks

variable {image : Image} {context : DecodeContext} {s s' : Session} {a mid : Address}
  {id : Nat} {b whole : Block} {is : List Instruction} {i j : Instruction}

theorem EndsBlock.congr (h : EndsBlock s a) (hcode : s'.code = s.code)
    (hblocks : s'.blocks = s.blocks) : EndsBlock s' a := by
  unfold EndsBlock
  rw [hcode, hblocks]
  exact h

/-- What ended a block before a cut ends one behind it: the tail if the block is the one that is
    cut. -/
theorem EndsBlock.cut (h : EndsBlock s a) (hlaid : LaidOut image context s)
    (hget : s.blocks.get? id = some whole) (hin : whole.contains mid)
    (hj : s.code.get? mid = some j) (hne : whole.start ≠ mid) :
    EndsBlock { s with blocks := s.blocks.cut id whole mid } a := by
  rcases h with ⟨k, b, i, hb, ha, hi, hnext⟩
  by_cases hk : k = id
  · rw [hk, hget, Option.some.injEq] at hb
    subst hb
    -- The last instruction reaches behind the cut, so it does not start in front of it.
    have hmid := Block.contains_iff.mp hin
    have hseg := (Block.contains_iff.mp ha).1
    have hstop := Block.toInt_stop (hlaid.wellFormed.positive hget)
      (hlaid.wellFormed.bounded hget)
    have hle := hlaid.le_of_lt_next hi hj (hmid.1.trans hseg.symm) (by rw [hnext]; omega)
    refine ⟨s.blocks.size, _, i, BlockStore.get?_cut_tail hget,
      (Block.contains_tailFrom hin hne).mpr ⟨ha, hle⟩, hi, ?_⟩
    rw [Block.stop_tailFrom hin]
    exact hnext
  · exact ⟨k, b, i, BlockStore.get?_cut_other hget hk hb, ha, hi, hnext⟩

/-- The instruction in front of a cut ends the head. -/
theorem LaidOut.endsBlock_cut (h : LaidOut image context s)
    (hget : s.blocks.get? id = some whole) (hin : whole.contains mid) (hne : whole.start ≠ mid)
    (hi : s.code.get? a = some i) (hnext : i.next a = mid) (ha : whole.contains a) :
    EndsBlock { s with blocks := s.blocks.cut id whole mid } a := by
  have hpos := (Image.instructionAt?_eq_some (h.decoded hi)).1
  have hbefore := Image.toInt_next (h.decoded hi)
  rw [hnext] at hbefore
  refine ⟨id, _, i, BlockStore.get?_cut_head hget,
    (Block.contains_headBefore hin hne).mpr ⟨ha, by omega⟩, hi, ?_⟩
  rw [Block.stop_headBefore hin]
  exact hnext

/-- The last instruction of the run that fills a block ends the block. -/
theorem Filled.endsBlock (h : Filled s.code b is i) (hs : Indexed image context s)
    (hget : s.blocks.get? id = some b) : EndsBlock s (Run.stop b.start is) := by
  have hstop := h.stop_eq hs
  rw [Run.stop_append] at hstop
  exact ⟨id, b, i, hget, h.contains_iff.mpr (Run.spans_last (hs.isRun_image h.run)),
    (isRun_append.mp h.run).2.1, hstop⟩

/-- The instructions of the block at an address that ends one end with that at the
    address. -/
theorem EndsBlock.getLast?_inRange (h : EndsBlock s a) (hlaid : LaidOut image context s) :
    ∃ id b i, s.blocks.find? a = some id ∧ s.blocks.get? id = some b
      ∧ (s.code.inRange b.start b.stop).getLast? = some (a, i) := by
  rcases h with ⟨id, b, i, hget, ha, hi, hnext⟩
  rcases hlaid.filled hget with ⟨is, l, hfill⟩
  have hstop := hfill.stop_eq hlaid.toIndexed
  rw [Run.stop_append] at hstop
  -- Two instructions end where the block ends, so they are the same.
  have heq := hlaid.eq_of_next_eq (isRun_append.mp hfill.run).2.1 hi (hstop.trans hnext.symm)
  refine ⟨id, b, l, hlaid.wellFormed.find?_eq_some_iff.mpr ⟨b, hget, ha⟩, hget, ?_⟩
  rw [hfill.inRange_eq_entries hlaid.toIndexed, List.getLast?_concat, heq]

end Blocks

section Steps

variable {e : Explorer} {s s' : Session} {r r' : Reference} {a : Address}

/-- A visit does not move the ends of blocks. -/
theorem Visited.endsBlock (hlaid : LaidOut e.image e.context s) (hv : Visited e s r s')
    (h : EndsBlock s a) : EndsBlock s' a := by
  cases hv with
  | misdirected code what h' => exact h
  | known id h' => exact h
  | cut id whole j last i hget hin hj hne hi hnext hlast straight =>
      refine (h.cut hlaid hget hin hj hne).congr ?_ ?_ <;> simp only [Session.record_stores]
  | stuck code message h' => exact h
  | decoded is i kind s' fresh straight hlen hending =>
      rcases hending.stores with ⟨-, hcode, hblocks⟩
      rcases h with ⟨id, b, j, hget, ha, hj, hnext⟩
      refine ⟨id, b, j, ?_, ha, ?_, hnext⟩ <;> simp only [Session.close_stores, hcode, hblocks]
      · exact BlockStore.get?_push_of_get? hget
      · exact hlaid.get?_takeRun fresh hj

/-- A reference that is new after a visit leaves the end of a block. It leaves the new block, or the
    head of one that was cut. -/
theorem Visited.mem_mentions (hlaid : LaidOut e.image e.context s) (hv : Visited e s r s')
    (h : r' ∈ s'.mentions) : r' ∈ s.mentions ∨ EndsBlock s' r'.source := by
  have hlaid' := hv.laidOut hlaid
  cases hv with
  | misdirected code what h' => exact Or.inl h
  | known id h' => exact Or.inl h
  | cut id whole j last i hget hin hj hne hi hnext hlast straight =>
      -- The cut records one reference, which leaves the first part at its end.
      rcases Session.mem_mentions_record h with rfl | hold
      · refine Or.inr (EndsBlock.congr (hlaid.endsBlock_cut hget hin hne hi hnext hlast) ?_ ?_)
          <;> simp only [Session.record_stores]
      · exact Or.inl hold
  | stuck code message h' => exact Or.inl h
  | decoded is i kind s1 fresh straight hlen hending =>
      have hrun := Session.isRun_takeRun s fresh.run
      have hlast := (hlaid.toIndexed.takeRun fresh).isSomewhere (isRun_append.mp hrun).2.1
      rcases hending.accounts hlast with ⟨new, hmentions, hsource, -⟩
      rcases hending.stores with ⟨-, hcode, hblocks⟩
      rw [s1.mentions_congr (by simp only [Session.close_stores])
        (by simp only [Session.close_stores]), hmentions.mem_iff, List.mem_append] at h
      rcases h with hnew | hold
      · -- What is new leaves the last instruction of the block just closed.
        have hne : is ++ [i] ≠ [] := by simp
        have hfill : Filled (s1.close r.target (is ++ [i]) kind).code
            (Run.block r.target (is ++ [i]) kind) is i := by
          refine ⟨?_, Run.toInt_block_length fresh.run hne kind, straight⟩
          simp only [Session.close_stores, hcode]
          exact hrun
        have hget : (s1.close r.target (is ++ [i]) kind).blocks.get? s.blocks.size
            = some (Run.block r.target (is ++ [i]) kind) := by
          simp only [Session.close_stores, hblocks, BlockStore.get?_push_self]
        rw [hsource r' hnew]
        exact Or.inr (hfill.endsBlock hlaid'.toIndexed hget)
      · exact Or.inl hold

/-- Following a reference keeps it so that references leave the ends of blocks. Before it is
    followed, the reference is neither pending nor recorded. -/
theorem Followed.endsBlock (hlaid : LaidOut e.image e.context s) (hf : Followed e s r s')
    (hs : ∀ r' ∈ r :: s.mentions, r'.source.isSomewhere → EndsBlock s r'.source)
    (h : r' ∈ s'.mentions) (hsource : r'.source.isSomewhere) : EndsBlock s' r'.source := by
  have hself := hs r List.mem_cons_self
  have hother : ∀ r' ∈ s.mentions, r'.source.isSomewhere → EndsBlock s r'.source :=
    fun r' hr' => hs r' (List.mem_cons_of_mem r hr')
  cases hf with
  | slot hprobe s' hread =>
      cases hread with
      | refused => exact hother r' h hsource
      | accepted word hword hlimit hfree hin hlanding hself' =>
          -- The entry and the next probe leave the jump that the table belongs to.
          rcases List.mem_cons.mp ((Session.mentions_enqueue _ _).mem_iff.mp h) with rfl | h
          · exact hself hsource
          · rcases List.mem_cons.mp ((Session.mentions_enqueue _ _).mem_iff.mp h) with rfl | h
            · exact hself hsource
            · exact hother r' h hsource
  | dynamic hprobe htarget =>
      have hends : EndsBlock s r'.source := by
        rcases Session.mem_mentions_record h with rfl | h
        · exact hself hsource
        · exact hother r' h hsource
      refine hends.congr ?_ ?_ <;> simp only [Session.record_stores] <;> rfl
  | visited htarget s' hv =>
      have hends : EndsBlock s' r'.source := by
        rcases Session.mem_mentions_record h with rfl | h
        · exact hv.endsBlock hlaid (hself hsource)
        · rcases hv.mem_mentions hlaid h with hold | hnew
          · exact hv.endsBlock hlaid (hother r' hold hsource)
          · exact hnew
      refine hends.congr ?_ ?_ <;> simp only [Session.record_stores]

end Steps

/-- Both ends of references are tied to blocks. References leave the ends of blocks from the
    moment they are queued, and those that have been followed arrive at the start of a block,
    or a diagnostic says why not. -/
structure Session.Anchored (s : Session) : Prop where
  leaves : ∀ r ∈ s.mentions, r.source.isSomewhere → EndsBlock s r.source
  arrives : ∀ r ∈ s.references.toList, r.target.isSomewhere → Settled s r.target

/-- By induction on the session, with both ends at once, because a step needs the layout for either
    of them. -/
theorem Explored.anchored {image : Image} {context : DecodeContext} {s : Session}
    (h : Explored image context (fun limits => 1 ≤ limits.blockInstructions) s) :
    LaidOut image context s ∧ s.Anchored := by
  refine h.keeps_laidOut (P := Session.Anchored) (fun _ hl => hl) ?_ ?_ ?_
  · exact ⟨fun r hr => (by cases hr), fun r hr => (by cases hr)⟩
  · intro s entry kind hs _
    refine ⟨fun r hr hsource => ?_, hs.arrives⟩
    rcases List.mem_cons.mp ((s.mentions_enqueue _).mem_iff.mp hr) with rfl | hr
    · -- An entry point leaves no instruction.
      have hentry : ¬ Address.nowhere.isSomewhere := by decide
      exact absurd hsource hentry
    · exact hs.leaves r hr hsource
  · intro s limits r queue s' hs _ hpop hlaid hf
    constructor
    · intro r' hr' hsource
      refine hf.endsBlock hlaid (fun q hq hsome => ?_) hr' hsource
      exact hs.leaves q ((s.mentions_pop hpop).mem_iff.mpr hq) hsome
    · intro r' hr' htarget
      exact hf.settled hlaid.wellFormed hs.arrives hr' htarget

end Disasm86
