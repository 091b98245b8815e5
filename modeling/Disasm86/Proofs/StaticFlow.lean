import Disasm86.Explore.Transfer
import Disasm86.Proofs.Layout

/-!
# The Static Flow of an Instruction

Which references an instruction has, read off the instruction and the blocks. A
transfer leads to its target, if the encoding names one that the segment can hold, and
to the instruction behind it, if execution can go on there. An instruction that
transfers no control leads to the one behind it only where a block ends, and only if
that block runs on.

`Session.owed` counts how often a reference should be known for a session. It depends
on the index and the blocks, and changes with them in two ways. A block that is put
around a new run adds the references of its last instruction and no others, since the
inner ones are straight. A block that is cut adds one reference, from the instruction
in front of the cut, which was an inner one before. No other instruction starts or
ceases to be the last of a block that runs on: an instruction that ends where a block
ends is the only one to end there.

## Main definitions

* `transferReferences`: The references of an instruction that transfers control.
* `flowReferences`: The references of an instruction.
* `BlockStore.runsOn`: A block that runs on ends with the instruction at an address.
* `Session.owed`: How often a reference should be known.

## Theorems

* `source_of_mem_flowReferences`: The references of an instruction leave it.
* `owed_of_unknown`, `owed_of_inner`: Where nothing is owed.
* `owed_close`: A new block adds the references of its last instruction.
* `owed_cut`: A cut adds the reference across it.
-/

namespace Disasm86

/-- The target that an instruction at `a` names, if it is an offset of 16 bits. -/
def Instruction.staticTarget (i : Instruction) (a : Address) : Address :=
  ((i.branchTarget? a).filter fun target =>
    0 ≤ target.offset.toInt ∧ target.offset.toInt ≤ 0xFFFF).getD .nowhere

/-- The references of the instruction at `a`, which performs the transfer `t`. -/
def transferReferences (a : Address) (i : Instruction) (t : Transfer) : List Reference :=
  ⟨.transfer t, a, if t.namesTarget then i.staticTarget a else .nowhere, .nowhere⟩
    :: if t.fallsThrough then [⟨.fallThrough, a, i.next a, .nowhere⟩] else []

/-- The references of the instruction at `a`. One that transfers no control has a reference if it is
    the last of a block that runs on: such a block was full, or it met another, or it has been
    cut. -/
def flowReferences (runsOn : Bool) (a : Address) (i : Instruction) : List Reference :=
  match i.transfer? with
  | some t => transferReferences a i t
  | none => if runsOn then [⟨.fallThrough, a, i.next a, .nowhere⟩] else []

/-- Whether a block that covers `a` runs on into `next`. -/
def BlockStore.runsOn (s : BlockStore) (a next : Address) : Bool :=
  s.blocks.any fun b => b.kind = .fallThrough ∧ b.contains a ∧ b.stop = next

/-- How often a reference should be known, by the instruction at its source. It is computed from the
    code and the blocks alone, so that it can be compared with the log. -/
def Session.owed (s : Session) (r : Reference) : Nat :=
  match s.code.get? r.source with
  | some i => (flowReferences (s.blocks.runsOn r.source (i.next r.source)) r.source i).count r
  | none => 0

/-- The offsets that a segment can hold, as numbers. -/
theorem isReachableOffset_iff {offset : Int32} :
    isReachableOffset offset ↔ 0 ≤ offset.toInt ∧ offset.toInt ≤ 0xFFFF := by
  have hgreatest : greatestOffset.toInt = 0xFFFF := by decide
  simp only [isReachableOffset, Bool.and_eq_true, decide_eq_true_eq, Int32.le_iff_toInt_le,
    Int32.toInt_zero, hgreatest]

/-- The blocks by their numbers. -/
theorem BlockStore.runsOn_iff {s : BlockStore} {a next : Address} : s.runsOn a next ↔
    ∃ id b, s.get? id = some b ∧ b.kind = .fallThrough ∧ b.contains a ∧ b.stop = next := by
  simp only [runsOn, Array.any_eq_true', decide_eq_true_eq, get?]
  constructor
  · intro h
    rcases h with ⟨b, hmem, hb⟩
    rcases Array.mem_iff_getElem?.mp hmem with ⟨id, hid⟩
    exact ⟨id, b, hid, hb⟩
  · intro h
    rcases h with ⟨id, b, hid, hb⟩
    exact ⟨b, Array.mem_iff_getElem?.mpr ⟨id, hid⟩, hb⟩

section Members

variable {a : Address} {i : Instruction} {t : Transfer} {r : Reference} {runsOn : Bool}

/-- What a transfer makes known leaves its instruction, and none of it goes through a table. -/
theorem source_of_mem_transferReferences (h : r ∈ transferReferences a i t) :
    r.source = a ∧ r.kind ≠ .indexedJump := by
  unfold transferReferences at h
  rcases List.mem_cons.mp h with rfl | h
  · exact ⟨rfl, fun hk => by cases hk⟩
  · by_cases hf : t.fallsThrough
    · rw [if_pos hf, List.mem_singleton] at h
      rw [h]
      exact ⟨rfl, fun hk => by cases hk⟩
    · rw [if_neg hf] at h
      cases h

/-- The references of an instruction leave it, and none goes through a table. -/
theorem source_of_mem_flowReferences (h : r ∈ flowReferences runsOn a i) :
    r.source = a ∧ r.kind ≠ .indexedJump := by
  unfold flowReferences at h
  cases ht : i.transfer? with
  | some t =>
      simp only [ht] at h
      exact source_of_mem_transferReferences h
  | none =>
      simp only [ht] at h
      cases runsOn with
      | false => cases h
      | true =>
          rw [if_pos rfl, List.mem_singleton] at h
          rw [h]
          exact ⟨rfl, fun hk => by cases hk⟩

/-- So a reference from elsewhere is not one of them. -/
theorem count_flowReferences_of_ne (h : r.source ≠ a) :
    (flowReferences runsOn a i).count r = 0 :=
  List.count_eq_zero.mpr fun hmem => h (source_of_mem_flowReferences hmem).1

end Members

section Updates

variable {e : Explorer} {image : Image} {context : DecodeContext} {s s' : Session}
  {start a last c : Address} {is : List Instruction} {i j k : Instruction} {kind : BlockKind}
  {id : Nat} {whole : Block}

/-- Of the blocks of a store with one more block, that block is the only one around its
    bytes. -/
theorem runsOn_push_inside (h : LaidOut e.image e.context s)
    (hrun : Fresh e s start (is ++ [i])) (hc : start.Spans (Run.size (is ++ [i])) c)
    (next : Address) :
    (s.blocks.push (Run.block start (is ++ [i]) kind)).runsOn c next ↔
      kind = .fallThrough ∧ (Run.block start (is ++ [i]) kind).stop = next := by
  have hne : is ++ [i] ≠ [] := by simp
  rw [BlockStore.runsOn_iff]
  constructor
  · intro hon
    rcases hon with ⟨id, b, hget, hkind, hin, hstop⟩
    rcases BlockStore.get?_push_cases hget with ⟨-, rfl⟩ | hold
    · exact ⟨hkind, hstop⟩
    -- Older blocks lie in known bytes, and the bytes of the run were unknown.
    · exact absurd hc (h.not_spans_of_fresh hrun hold hin)
  · intro hon
    refine ⟨s.blocks.size, _, BlockStore.get?_push_self, hon.1, ?_, hon.2⟩
    exact (Run.contains_block hrun.run hne kind).mpr hc

/-- Outside the bytes of a new block nothing changes. -/
theorem runsOn_push_outside (hrun : Fresh e s start (is ++ [i]))
    (hc : ¬ start.Spans (Run.size (is ++ [i])) c) (next : Address) :
    (s.blocks.push (Run.block start (is ++ [i]) kind)).runsOn c next
      = s.blocks.runsOn c next := by
  have hne : is ++ [i] ≠ [] := by simp
  rw [Bool.eq_iff_iff, BlockStore.runsOn_iff, BlockStore.runsOn_iff]
  constructor
  · intro hon
    rcases hon with ⟨id, b, hget, hkind, hin, hstop⟩
    rcases BlockStore.get?_push_cases hget with ⟨-, rfl⟩ | hold
    · exact absurd ((Run.contains_block hrun.run hne kind).mp hin) hc
    · exact ⟨id, b, hold, hkind, hin, hstop⟩
  · intro hon
    rcases hon with ⟨id, b, hget, hrest⟩
    exact ⟨id, b, BlockStore.get?_push_of_get? hget, hrest⟩

/-- Nothing is owed for a byte of which nothing is known. -/
theorem owed_of_unknown (h : Indexed image context s) {r : Reference}
    (hunknown : (s.bytes.get r.source).kind = .unknown) : s.owed r = 0 := by
  unfold Session.owed
  cases hi : s.code.get? r.source with
  | none => rfl
  | some i =>
      rw [h.marked hi (h.spans_self hi)] at hunknown
      cases hunknown

/-- Nothing is owed for an instruction that transfers no control and ends no block that
    runs on. -/
theorem owed_of_inner {r : Reference} (hi : s.code.get? r.source = some i)
    (hstraight : i.transfer? = none) (hoff : ¬ s.blocks.runsOn r.source (i.next r.source)) :
    s.owed r = 0 := by
  unfold Session.owed
  simp only [hi, flowReferences, hstraight, if_neg hoff, List.count_nil]

/-- A block around a new run adds the references of its last instruction, and for all other
    instructions nothing changes. -/
theorem owed_close (h : LaidOut e.image e.context s) (h' : LaidOut e.image e.context s')
    (hrun : Fresh e s start (is ++ [i])) (hstraight : ∀ j ∈ is, j.transfer? = none)
    (kind : BlockKind) (hcode : s'.code = (s.takeRun start (is ++ [i])).code)
    (hblocks : s'.blocks = s.blocks.push (Run.block start (is ++ [i]) kind)) (r : Reference) :
    s'.owed r
      = (flowReferences (kind = .fallThrough) (Run.stop start is) i).count r + s.owed r := by
  have hne : is ++ [i] ≠ [] := by simp
  -- The run fills the block, so the block ends where its last instruction ends.
  have hfill : Filled s'.code (Run.block start (is ++ [i]) kind) is i := by
    refine ⟨?_, Run.toInt_block_length hrun.run hne kind, hstraight⟩
    rw [hcode]
    exact Session.isRun_takeRun s hrun.run
  have hlast : s'.code.get? (Run.stop start is) = some i := (isRun_append.mp hfill.run).2.1
  have hstop : (Run.block start (is ++ [i]) kind).stop = i.next (Run.stop start is) := by
    rw [← hfill.stop_eq h'.toIndexed, Run.stop_append]
    rfl
  have hspanlast := Run.spans_last hrun.run
  -- A reference of the new run was owed to nobody; one from elsewhere is owed as before.
  by_cases hspan : start.Spans (Run.size (is ++ [i])) r.source
  · rw [owed_of_unknown h.toIndexed (hrun.unknown r.source hspan), Nat.add_zero]
    by_cases heq : r.source = Run.stop start is
    · have hon : s'.blocks.runsOn (Run.stop start is) (i.next (Run.stop start is))
          = decide (kind = .fallThrough) := by
        rw [Bool.eq_iff_iff, hblocks, runsOn_push_inside h hrun hspanlast, decide_eq_true_eq]
        exact ⟨fun hon => hon.1, fun hk => ⟨hk, hstop⟩⟩
      unfold Session.owed
      simp only [heq, hlast, hon]
    · rw [count_flowReferences_of_ne heq]
      cases hk : s'.code.get? r.source with
      | none => simp only [Session.owed, hk]
      | some k =>
          -- An inner instruction of the run is straight, and the block ends behind another.
          have hinner := hfill.mem_of_ne_last h'.toIndexed (hfill.contains_iff.mpr hspan) hk heq
          refine owed_of_inner hk (hstraight k hinner) fun hon => ?_
          rw [hblocks, runsOn_push_inside h hrun hspan, hstop] at hon
          exact heq (h'.eq_of_next_eq hk hlast hon.2.symm)
  · have heq : r.source ≠ Run.stop start is := by
      intro heq
      rw [heq] at hspan
      exact hspan hspanlast
    rw [count_flowReferences_of_ne heq, Nat.zero_add]
    unfold Session.owed
    rw [hcode, Session.takeRun_get?_outside s hrun.run hspan, hblocks]
    simp only [runsOn_push_outside hrun hspan]

/-- Before a block is cut, nothing runs on into the cut from inside of it. -/
theorem runsOn_before_cut (h : LaidOut image context s) (hget : s.blocks.get? id = some whole)
    (hin : whole.contains a) (hlast : whole.contains last) :
    s.blocks.runsOn last a = false := by
  rw [Bool.eq_false_iff]
  intro hon
  rcases BlockStore.runsOn_iff.mp hon with ⟨id', b, hb, -, hbin, hstop⟩
  have hid := h.wellFormed.disjoint hb hget hbin hlast
  rw [hid, hget, Option.some.injEq] at hb
  have hend := Block.toInt_stop (h.wellFormed.positive hget) (h.wellFormed.bounded hget)
  have hbehind := (Block.contains_iff.mp hin).2.2
  rw [hb, hstop] at hend
  rw [hb] at hbehind
  omega

/-- A cut makes the instruction in front of it the last of a block that runs on, and
    changes that for no other instruction. -/
theorem runsOn_cut_iff (h : LaidOut image context s) (hget : s.blocks.get? id = some whole)
    (hin : whole.contains a) (hj : s.code.get? a = some j) (hne : whole.start ≠ a)
    (hi : s.code.get? last = some i) (hnext : i.next last = a) (hlast : whole.contains last)
    (hk : s.code.get? c = some k) :
    (s.blocks.cut id whole a).runsOn c (k.next c) ↔
      c = last ∨ s.blocks.runsOn c (k.next c) := by
  rw [BlockStore.runsOn_iff, BlockStore.runsOn_iff]
  constructor
  · intro hon
    rcases hon with ⟨id', b, hb, hkind, hbin, hstop⟩
    rcases BlockStore.get?_cut_cases hget hb with ⟨-, rfl⟩ | ⟨-, rfl⟩ | ⟨-, -, hold⟩
    · -- The second part ends where the whole block ended.
      rw [Block.stop_tailFrom hin] at hstop
      exact Or.inr ⟨id, whole, hget, hkind, ((Block.contains_tailFrom hin hne).mp hbin).1, hstop⟩
    · -- The first part ends at the cut, and so does the instruction in front of it.
      rw [Block.stop_headBefore hin, ← hnext] at hstop
      exact Or.inl (h.eq_of_next_eq hk hi hstop.symm)
    · exact Or.inr ⟨id', b, hold, hkind, hbin, hstop⟩
  · intro hon
    rcases hon with heq | ⟨id', b, hb, hkind, hbin, hstop⟩
    · -- The instruction in front of the cut ends the first part.
      have hki : k = i := by
        rw [heq, hi, Option.some.injEq] at hk
        exact hk.symm
      have hilast := Image.toInt_next (h.decoded hi)
      have hpos := (Image.instructionAt?_eq_some (h.decoded hi)).1
      rw [hnext] at hilast
      rw [heq, hki, hnext]
      exact ⟨id, whole.headBefore a, BlockStore.get?_cut_head hget, rfl,
        (Block.contains_headBefore hin hne).mpr ⟨hlast, by omega⟩, Block.stop_headBefore hin⟩
    · by_cases hid : id' = id
      · -- The last instruction of the block that is cut ends the second part.
        rw [hid, hget, Option.some.injEq] at hb
        rw [← hb] at hkind hbin hstop
        have hend := Block.toInt_stop (h.wellFormed.positive hget) (h.wellFormed.bounded hget)
        have hcut := Block.contains_iff.mp hin
        have hseg := (Block.contains_iff.mp hbin).1
        rw [hstop] at hend
        have hbehind := h.le_of_lt_next hk hj (hcut.1.trans hseg.symm) (by omega)
        refine ⟨s.blocks.size, whole.tailFrom a, BlockStore.get?_cut_tail hget, hkind, ?_, ?_⟩
        · exact (Block.contains_tailFrom hin hne).mpr ⟨hbin, hbehind⟩
        · rw [Block.stop_tailFrom hin]
          exact hstop
      · exact ⟨id', b, BlockStore.get?_cut_other hget hid hb, hkind, hbin, hstop⟩

/-- A cut adds the reference that leads across it. -/
theorem owed_cut (h : LaidOut image context s) (hget : s.blocks.get? id = some whole)
    (hin : whole.contains a) (hj : s.code.get? a = some j) (hne : whole.start ≠ a)
    (hi : s.code.get? last = some i) (hnext : i.next last = a) (hlast : whole.contains last)
    (hstraight : i.transfer? = none) (r : Reference) :
    ({ s with blocks := s.blocks.cut id whole a } : Session).owed r
      = [(⟨.fallThrough, last, a, .nowhere⟩ : Reference)].count r + s.owed r := by
  -- The reference across the cut has one source.
  have hother : r.source ≠ last →
      [(⟨.fallThrough, last, a, .nowhere⟩ : Reference)].count r = 0 := by
    intro hsource
    refine List.count_eq_zero.mpr fun hmem => hsource ?_
    rw [List.mem_singleton.mp hmem]
  unfold Session.owed
  cases hk : s.code.get? r.source with
  | none =>
      have hsource : r.source ≠ last := by
        intro heq
        rw [heq, hi] at hk
        cases hk
      simp only [hother hsource]
  | some k =>
      have hiff := runsOn_cut_iff h hget hin hj hne hi hnext hlast hk
      by_cases heq : r.source = last
      · -- In front of the cut there was nothing to be known, and now there is one reference.
        have hki : k = i := by
          rw [heq, hi, Option.some.injEq] at hk
          exact hk.symm
        have hbefore := runsOn_before_cut h hget hin hlast
        simp only []
        rw [hiff.mpr (Or.inl heq), hki, heq, hnext, hbefore]
        simp only [flowReferences, hstraight, hnext, if_true, Bool.false_eq_true, if_false,
          List.count_nil, Nat.add_zero]
      · have hsame : (s.blocks.cut id whole a).runsOn r.source (k.next r.source)
            = s.blocks.runsOn r.source (k.next r.source) := by
          rw [Bool.eq_iff_iff, hiff]
          exact ⟨fun hon => hon.resolve_left heq, Or.inr⟩
        simp only [hother heq, hsame, Nat.zero_add]

end Updates

end Disasm86
