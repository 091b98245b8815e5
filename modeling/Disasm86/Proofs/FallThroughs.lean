import Disasm86.Proofs.Findings
import Disasm86.Proofs.Sources

/-!
# Where Execution Runs On

A reference that says that execution runs on waits in the queue like any other, and until its turn
comes other references are followed: blocks are decoded around its target, cut, and tables are
read. Still, when it is followed it never lands inside of a block. Either nothing is known of its
target, or the target is data or lies outside the image, or a block starts right there.

The reason is the boundary between source and target. The source is the last instruction of its
block, so that block ends at the target, however often it has been cut. A block that covered the
target and started before it would reach over this boundary and share a byte with the block of the
source.

That the target is the address behind the source need not be traced through the run again. The
accounts of a session know it: whatever is mentioned is owed to the instruction at its source.

## Main definitions

* `Explorer.Spares`: Following a reference leaves the known code alone.

## Theorems

* `Balanced.next_eq`: Execution runs on into the address behind the source.
* `LaidOut.exists_start_next`: Code behind the end of a block is the start of another one.
* `Explored.kind_ne_padding`: Exploring takes no byte for filler.
* `Visited.spares`: A visit that does not land inside of a block cuts none.
* `Explored.exists_start_of_fallThrough`: If execution runs on into code, a block starts there.
* `Explored.fallThrough_spares`: Running on leaves the known code alone.
-/

namespace Disasm86

/-- Following a reference cuts no block and finds no target inside of an instruction. If it
    fails, then not because of code that was known at the target. -/
structure Explorer.Spares (e : Explorer) (s : Session) (r : Reference) : Prop where
  /-- The target lies outside the image, or in data, or nothing is known of it, or a block starts
      there. -/
  target : ¬ e.image.contains r.target ∨ (s.bytes.get r.target).kind = .data
    ∨ (s.bytes.get r.target).kind = .unknown ∨ ∃ id, s.blocks.startingAt? r.target = some id
  /-- The blocks are as before, or there is one more, which starts at the target. -/
  blocks : ∀ s', e.process r s = .ok s' → s'.blocks = s.blocks
    ∨ ∃ b : Block, b.start = r.target ∧ s'.blocks = s.blocks.push b
  /-- No target inside of an instruction is reported. -/
  findings : ∀ s', e.process r s = .ok s' →
    (s'.diagnostics.toList.filter fun d => d.code = .ranIntoCode)
      = s.diagnostics.toList.filter fun d => d.code = .ranIntoCode
  /-- What cannot be followed leads to a byte that nothing is known of. -/
  failures : ∀ cause, e.process r s = .error cause → (s.bytes.get r.target).kind = .unknown

section Targets

variable {image : Image} {context : DecodeContext} {s : Session} {a : Address} {i : Instruction}
  {r : Reference} {refs : List Reference} {runsOn : Bool}

/-- An instruction runs on into the address behind it. -/
theorem target_of_mem_flowReferences (h : r ∈ flowReferences runsOn a i)
    (hkind : r.kind = .fallThrough) : r.target = i.next a := by
  unfold flowReferences at h
  cases ht : i.transfer? with
  | none =>
      simp only [ht] at h
      split at h
      · rw [List.mem_singleton.mp h]
      · cases h
  | some t =>
      simp only [ht, transferReferences] at h
      rcases List.mem_cons.mp h with rfl | h
      · cases hkind
      · split at h
        · rw [List.mem_singleton.mp h]
        · cases h

/-- What is on the accounts as running on leads behind the instruction at its source. -/
theorem Balanced.next_eq (h : Balanced refs s) (hr : r ∈ refs) (hkind : r.kind = .fallThrough)
    (hsource : r.source.isSomewhere) :
    ∃ i, s.code.get? r.source = some i ∧ i.next r.source = r.target := by
  rcases h.sourced r hr hsource with ⟨i, hi⟩
  have hcount := h.counted r hsource (by rw [hkind]; decide)
  have hpos := List.count_pos_iff.mpr hr
  simp only [hcount, Session.owed, hi] at hpos
  exact ⟨i, hi, (target_of_mem_flowReferences (List.count_pos_iff.mp hpos) hkind).symm⟩

/-- If there is code behind the end of a block, another block starts there. -/
theorem LaidOut.exists_start_next (h : LaidOut image context s) (hends : EndsBlock s a)
    (hi : s.code.get? a = some i) (hcode : (s.bytes.get (i.next a)).kind = .code) :
    ∃ id b, s.blocks.get? id = some b ∧ b.start = i.next a := by
  rcases hends with ⟨id, b, j, hb, ha, hj, hnext⟩
  rw [hi, Option.some.injEq] at hj
  subst hj
  rcases h.enclosed hcode with ⟨id', c, hc, hin⟩
  refine ⟨id', c, hc, ?_⟩
  rw [hnext] at hin ⊢
  have hstop := Block.toInt_stop (h.wellFormed.positive hb) (h.wellFormed.bounded hb)
  rcases Block.contains_iff.mp hin with ⟨hseg, hle, hlt⟩
  refine Address.eq_of_offset_eq hseg.symm ?_
  -- The block around the code behind the end starts there, or it starts before.
  by_cases hbefore : c.start.offset.toInt < b.stop.offset.toInt
  · -- The block around the target would meet that of the source, and so be the same.
    have hpos := h.wellFormed.positive hb
    have hmeets : c.Meets b := by
      refine (Block.meets_iff (h.wellFormed.positive hc) hpos).mpr ⟨hseg.symm, ?_, ?_⟩
      · unfold Block.stopOffset
        omega
      · unfold Block.stopOffset
        omega
    rcases hmeets with ⟨x, hxc, hxb⟩
    have heq := h.wellFormed.disjoint hc hb hxc hxb
    rw [heq, hb, Option.some.injEq] at hc
    subst hc
    omega
  · omega

end Targets

section Steps

variable {e : Explorer} {s s' : Session} {r : Reference}

/-- Exploring never takes a byte for padding. -/
theorem Followed.kind_ne_padding (hf : Followed e s r s')
    (h : ∀ a, (s.bytes.get a).kind ≠ .padding) (a : Address) :
    (s'.bytes.get a).kind ≠ .padding := by
  cases hf with
  | slot hprobe s' hread =>
      cases hread with
      | refused => exact h a
      | accepted word hword hlimit hfree hin hlanding hself =>
          rcases Image.bytes?_eq_some hword with ⟨h0, hend, -⟩
          have hput := ByteMap.get_put s.bytes r.slot a .data 2 h0 (by omega)
          simp only [Session.takeSlot, Session.enqueue, hput]
          split
          · exact fun hkind => (by cases hkind)
          · exact h a
  | dynamic hprobe htarget =>
      simp only [Session.record_stores]
      exact h a
  | visited htarget s' hv =>
      simp only [Session.record_stores]
      -- Bytes that are taken over become code, and all others are as before.
      cases hv with
      | misdirected code what hwhy => exact h a
      | known id hstart => exact h a
      | cut id whole j last i hget hin hj hne hi hnext hlast straight =>
          simp only [Session.record_stores]
          exact h a
      | stuck code message hwhy hunknown => exact h a
      | decoded is i kind s1 fresh straight hlen hending =>
          simp only [Session.close_stores, hending.stores]
          by_cases hspan : r.target.Spans (Run.size (is ++ [i])) a
          · rw [Session.takeRun_kind_inside s fresh.run hspan]
            decide
          · rw [Session.takeRun_get_outside s fresh.run hspan]
            exact h a

/-- A visit of a target that is no code, or where a block starts, adds a block at most. -/
theorem Visited.spares (hlaid : LaidOut e.image e.context s) (hv : Visited e s r s')
    (h : (s.bytes.get r.target).kind = .code →
      ∃ id b, s.blocks.get? id = some b ∧ b.start = r.target) :
    (s'.blocks = s.blocks ∨ ∃ b : Block, b.start = r.target ∧ s'.blocks = s.blocks.push b)
      ∧ Diagnostics.Adds (DiagnosticCode.ofExploring.erase .ranIntoCode) s.diagnostics
        s'.diagnostics := by
  cases hv with
  | misdirected code what hwhy =>
      refine ⟨Or.inl rfl, Diagnostics.adds_report _ _ _ ?_⟩
      cases hwhy with
      | outside => decide
      | data => decide
      | inside hmark =>
          -- The first byte of a block leads an instruction.
          rcases h (by rw [hmark]) with ⟨id, b, hget, hstart⟩
          have hlead := hlaid.get_eq_lead_iff.mpr (hlaid.exists_first hget)
          rw [hstart, hmark] at hlead
          cases hlead
  | known id hstart => exact ⟨Or.inl rfl, Diagnostics.Adds.refl _ _⟩
  | cut id whole j last i hget hin hj hne hi hnext hlast straight =>
      -- The block that starts at the target would be the one around it.
      rcases h (hlaid.kind_eq_code_iff.mpr ⟨id, whole, hget, hin⟩) with ⟨id', b, hb, hstart⟩
      have hself := Block.contains_start (hlaid.wellFormed.positive hb)
      rw [hstart] at hself
      have heq := hlaid.wellFormed.disjoint hb hget hself hin
      rw [heq, hget, Option.some.injEq] at hb
      subst hb
      exact absurd hstart hne
  | stuck code message hwhy hunknown =>
      refine ⟨Or.inl rfl, Diagnostics.adds_report _ _ _ ?_⟩
      cases hwhy with
      | outside => decide
      | undecodable => decide
      | overlap => decide
  | decoded is i kind s1 fresh straight hlen hending =>
      refine ⟨Or.inr ⟨Run.block r.target (is ++ [i]) kind, rfl, ?_⟩, ?_⟩
      · simp only [Session.close_stores, hending.stores]
      · exact (hending.finds.adds.mono (by decide)).trans
          ((s1.close_finds _ _ _).adds.mono (by decide))

/-- The step lemma, for any reference that leads to the start of a block whenever it leads to
    code. -/
theorem Followed.spares (hlaid : LaidOut e.image e.context s) (hf : Followed e s r s')
    (hprobe : ¬ r.isProbe) (h : (s.bytes.get r.target).kind = .code →
      ∃ id b, s.blocks.get? id = some b ∧ b.start = r.target) :
    (s'.blocks = s.blocks ∨ ∃ b : Block, b.start = r.target ∧ s'.blocks = s.blocks.push b)
      ∧ Diagnostics.Adds (DiagnosticCode.ofExploring.erase .ranIntoCode) s.diagnostics
        s'.diagnostics := by
  cases hf with
  | slot hslot s' hread => exact absurd hslot hprobe
  | dynamic hprobe htarget =>
      simp only [Session.record_stores]
      exact ⟨Or.inl rfl, Diagnostics.adds_report _ _ _ (by decide)⟩
  | visited htarget s' hv =>
      simp only [Session.record_stores]
      exact hv.spares hlaid h

end Steps

section Sessions

variable {image : Image} {context : DecodeContext} {s : Session} {r : Reference}
  {queue : ReferenceQueue} {limits : Limits}

/-- Exploring takes no byte for filler. -/
theorem Explored.kind_ne_padding
    (h : Explored image context (fun limits => 1 ≤ limits.blockInstructions) s) (a : Address) :
    (s.bytes.get a).kind ≠ .padding := by
  refine (h.keeps_laidOut (P := fun s => ∀ a, (s.bytes.get a).kind ≠ .padding) (fun _ hl => hl)
    ?_ ?_ ?_).2 a
  · intro a
    rw [show Session.fresh.bytes = ByteMap.empty from rfl, ByteMap.get_empty]
    decide
  · intro s entry kind hs _
    exact hs
  · intro s limits r queue s' hs _ _ _ hf
    exact hf.kind_ne_padding hs

/-- If execution runs on into code, a block starts there. -/
theorem Explored.exists_start_of_fallThrough
    (h : Explored image context (fun limits => 1 ≤ limits.blockInstructions) s)
    (hr : r ∈ s.mentions) (hkind : r.kind = .fallThrough) (hsource : r.source.isSomewhere)
    (hcode : (s.bytes.get r.target).kind = .code) :
    ∃ id b, s.blocks.get? id = some b ∧ b.start = r.target := by
  rcases h.anchored with ⟨hlaid, hanchored⟩
  rcases h.balanced.next_eq hr hkind hsource with ⟨i, hi, hnext⟩
  rw [← hnext] at hcode ⊢
  exact hlaid.exists_start_next (hanchored.leaves r hr hsource) hi hcode

/-- A reference by which execution runs on cuts no block when it is followed, and it does not land
    inside of an instruction. Such a reference leaves the end of a block. Were there code behind the
    end that is not the start of a block, the block around it would reach back into the first. -/
theorem Explored.fallThrough_spares
    (h : Explored image context (fun limits => 1 ≤ limits.blockInstructions) s)
    (hlimit : 1 ≤ limits.blockInstructions) (hpop : s.queue.pop? = some (r, queue))
    (hkind : r.kind = .fallThrough) (hsource : r.source.isSomewhere) :
    Explorer.Spares ⟨image, context, limits⟩ { s with queue := queue } r := by
  have hlaid : LaidOut image context { s with queue := queue } := h.laidOut.congr rfl rfl rfl
  have hstart := h.exists_start_of_fallThrough ((s.mentions_pop hpop).mem_iff.mpr
    List.mem_cons_self) hkind hsource
  have htarget : ¬ image.contains r.target ∨ (s.bytes.get r.target).kind = .data
      ∨ (s.bytes.get r.target).kind = .unknown
      ∨ ∃ id, s.blocks.startingAt? r.target = some id := by
    -- What is known of the target settles where it lies. Exploring takes nothing for padding.
    cases hmark : (s.bytes.get r.target).kind with
    | unknown => exact Or.inr (Or.inr (Or.inl rfl))
    | data => exact Or.inr (Or.inl rfl)
    | padding => exact absurd hmark (h.kind_ne_padding r.target)
    | code =>
        rcases hstart hmark with ⟨id, b, hb⟩
        exact Or.inr (Or.inr (Or.inr ⟨id, hlaid.wellFormed.startingAt?_iff.mpr ⟨b, hb⟩⟩))
  have hprobe : ¬ r.isProbe := by
    simp [Reference.isProbe, hkind]
  have hfollowed : ∀ s',
      Explorer.process ⟨image, context, limits⟩ r { s with queue := queue } = .ok s' →
      Followed ⟨image, context, limits⟩ { s with queue := queue } r s' :=
    fun s' hprocess => process_followed hlaid hlimit hprocess
  exact ⟨htarget, fun s' hprocess => ((hfollowed s' hprocess).spares hlaid hprobe hstart).1,
    fun s' hprocess =>
      ((hfollowed s' hprocess).spares hlaid hprobe hstart).2.filter_code (by decide),
    fun cause hprocess => (process_eq_error hprocess).1⟩

end Sessions

/-- A branch back into its own block, and a return behind it. -/
def loopBack : Image := Image.ofBytes #[0x90, 0x90, 0x75, 0xFD, 0xC3] 0

/-- The return is known already, and the block of the branch is cut before execution runs on. -/
theorem fallThrough_spares_loopBack :
    let e : Explorer := ⟨loopBack, {}, {}⟩
    let r : Reference := ⟨.fallThrough, ⟨0, 2⟩, ⟨0, 4⟩, .nowhere⟩
    ∃ s s' outcome queue, e.analyze (fun _ => false) ⟨0, 4⟩ .entry .fresh = .ok (s, .ok ())
      ∧ e.analyze (fun asked => asked == 2) ⟨0, 0⟩ .entry s = .ok (s', outcome)
      ∧ s'.blocks.get? 1 = some ⟨⟨0, 0⟩, 1, .fallThrough⟩
      ∧ s'.blocks.get? 2 = some ⟨⟨0, 1⟩, 3, .branch⟩
      ∧ s'.queue.pop? = some (r, queue) ∧ e.Spares { s' with queue := queue } r := by
  intro e r
  -- The second call is stopped when the reference is next.
  let again : Session → Bool := fun s =>
    (e.analyze (fun asked => asked == 2) ⟨0, 0⟩ .entry s).toOption.any fun x =>
      decide (x.1.blocks.get? 1 = some ⟨⟨0, 0⟩, 1, .fallThrough⟩
        ∧ x.1.blocks.get? 2 = some ⟨⟨0, 1⟩, 3, .branch⟩ ∧ x.1.queue.pop?.map (·.1) = some r)
  have hfound : (e.analyze (fun _ => false) ⟨0, 4⟩ .entry .fresh).toOption.any
      (fun x => x.2.isOk && again x.1) = true := by
    decide +kernel
  rcases exists_session_of_any again hfound with ⟨s, hfirst, hfound'⟩
  rcases exists_ok_of_any hfound' with ⟨⟨s', outcome⟩, hsecond, hp⟩
  rcases of_decide_eq_true hp with ⟨hhead, htail, hnext⟩
  rcases Option.map_eq_some_iff.mp hnext with ⟨⟨r', queue⟩, hpop, hr⟩
  have hreference : r' = r := hr
  rw [hreference] at hpop
  have hfresh : Explored loopBack {} (fun limits => 1 ≤ limits.blockInstructions) .fresh := .fresh
  have hbetween := hfresh.analyze {} (by decide) _ _ _ hfirst
  have hexplored := hbetween.analyze {} (by decide) _ _ _ hsecond
  exact ⟨s, s', outcome, queue, hfirst, hsecond, hhead, htail, hpop,
    hexplored.fallThrough_spares (by decide) hpop (by decide +kernel) (by decide +kernel)⟩

end Disasm86
