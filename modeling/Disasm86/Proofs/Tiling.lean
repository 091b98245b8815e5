import Disasm86.Proofs.Explored
import Disasm86.Proofs.Visit

/-!
# The Tiling of Code

The bytes of code are tiled twice, by the indexed instructions and by the blocks, and
both tilings hold at every moment of an exploration. The three stores that say so are
written to at different times, by decoding, by cutting and by reading a jump table, and
none of them looks at the others.

The invariant that is carried from reference to reference is `LaidOut`. Every way in
which following a reference can end changes the stores by one of the updates of the
layout theory, or does not change them at all, so the step is a case distinction and
the rest is `Explored.keeps`. `Tiled` is what the invariant means for somebody who
reads the stores: it speaks of the image and the decoder rather than of runs.

## Main definitions

* `Tiled`: Instructions and blocks tile the bytes of code.

## Theorems

* `Visited.laidOut`, `Followed.laidOut`: Following a reference keeps the stores laid out.
* `Explored.keeps_laidOut`: Invariants of sessions whose stores are laid out.
* `run_keeps_laidOut`: Invariants of a run that starts in such a session.
* `Explored.laidOut`: The stores of an explored session are laid out.
* `Explored.tiled`: Instructions and blocks of an explored session tile its code.
-/

namespace Disasm86

section Steps

variable {e : Explorer} {s s' : Session} {r : Reference}

/-- The visit of a target keeps the stores laid out: it takes a fresh run over and puts
    a block around it, or cuts a block, or leaves the stores alone. -/
theorem Visited.laidOut (h : LaidOut e.image e.context s) (hv : Visited e s r s') :
    LaidOut e.image e.context s' := by
  cases hv with
  | misdirected code what h' => exact h.congr rfl rfl rfl
  | known id h' => exact h
  | cut id whole j last i hget hin hj hne hi hnext hlast straight =>
      have hcut := h.cut hget hin hj hne
      refine hcut.congr ?_ ?_ ?_ <;> simp only [Session.record_stores]
  | stuck code message h' => exact h.congr rfl rfl rfl
  | decoded is i kind s' fresh straight hlen hending =>
      rcases hending.stores with ⟨hbytes, hcode, hblocks⟩
      refine h.close fresh straight kind ?_ ?_ ?_ <;> simp only [Session.close_stores]
      · exact hbytes
      · exact hcode
      · rw [hblocks]

/-- A slot that is taken turns unknown bytes into data, which no store of code knows
    about. -/
theorem SlotRead.laidOut (h : LaidOut e.image e.context s) (hr : SlotRead e s r s') :
    LaidOut e.image e.context s' := by
  cases hr with
  | refused => exact h
  | accepted word hword hlimit hfree hin hlanding hself =>
      rcases Image.bytes?_eq_some hword with ⟨h0, hend, -⟩
      -- Only the two bytes of the slot change, and they become data.
      refine h.of_bytes rfl rfl fun a => ?_
      have hput := ByteMap.get_put s.bytes r.slot a .data 2 h0 (by omega)
      by_cases hspan : r.slot.Spans 2 a
      · refine Or.inr ⟨hfree a hspan, ?_⟩
        rw [if_pos hspan] at hput
        simp only [Session.takeSlot, Session.enqueue, hput, ne_eq, reduceCtorEq,
          not_false_eq_true]
      · rw [if_neg hspan] at hput
        exact Or.inl hput

/-- The step lemma: following a reference keeps the stores laid out. -/
theorem Followed.laidOut (h : LaidOut e.image e.context s) (hf : Followed e s r s') :
    LaidOut e.image e.context s' := by
  have hrecord : ∀ {s : Session}, LaidOut e.image e.context s →
      LaidOut e.image e.context (s.record r) := by
    intro s hs
    refine hs.congr ?_ ?_ ?_ <;> simp only [Session.record_stores]
  cases hf with
  | slot hprobe s' hr => exact hr.laidOut h
  | dynamic hprobe htarget => exact hrecord (h.congr rfl rfl rfl)
  | visited htarget s' hv => exact hrecord (hv.laidOut h)

end Steps

section Sessions

variable {image : Image} {context : DecodeContext} {allowed : Limits → Prop} {s : Session}

/-- The form of `Explored.keeps` for what depends on the layout of the stores: the step may assume
    it, and is given what following the reference came to. Most invariants of sessions are proved by
    this. -/
theorem Explored.keeps_laidOut {P : Session → Prop}
    (hallowed : ∀ limits, allowed limits → 1 ≤ limits.blockInstructions) (hfresh : P .fresh)
    (hentry : ∀ s entry kind, P s → entry.isSomewhere →
      P (s.enqueue ⟨kind, .nowhere, entry, .nowhere⟩))
    (hfollow : ∀ s limits r queue s', P s → allowed limits → s.queue.pop? = some (r, queue) →
      LaidOut image context { s with queue := queue } →
      Followed ⟨image, context, limits⟩ { s with queue := queue } r s' → P s')
    (h : Explored image context allowed s) : LaidOut image context s ∧ P s := by
  refine h.keeps (P := fun s => LaidOut image context s ∧ P s) ⟨LaidOut.fresh, hfresh⟩ ?_ ?_
  · intro s entry kind hs hsome
    exact ⟨hs.1.congr rfl rfl rfl, hentry s entry kind hs.2 hsome⟩
  · intro s limits r queue s' hs hlimits hpop hprocess
    -- Taking a reference out of the queue touches no store.
    have hpopped : LaidOut image context { s with queue := queue } := hs.1.congr rfl rfl rfl
    have hfollowed := process_followed (e := ⟨image, context, limits⟩) hpopped
      (hallowed limits hlimits) hprocess
    exact ⟨hfollowed.laidOut hpopped,
      hfollow s limits r queue _ hs.2 hlimits hpop hpopped hfollowed⟩

/-- The same for a single run, from a session whose stores are laid out. -/
theorem run_keeps_laidOut {e : Explorer} {P : Session → Prop} {s' : Session}
    {outcome : Except Fault Unit}
    (hlimit : 1 ≤ e.limits.blockInstructions)
    (hfollow : ∀ s r queue s', P s → s.queue.pop? = some (r, queue) →
      LaidOut e.image e.context { s with queue := queue } →
      Followed e { s with queue := queue } r s' → P s')
    {cancelled : Nat → Bool} (hlaid : LaidOut e.image e.context s) (hs : P s)
    (hrun : e.run cancelled s = .ok (s', outcome)) :
    LaidOut e.image e.context s' ∧ P s' := by
  refine drain_keeps (P := fun s => LaidOut e.image e.context s ∧ P s) ?_ cancelled _ 0
    ⟨hlaid, hs⟩ hrun
  intro s r queue s' hs hpop hprocess
  have hpopped : LaidOut e.image e.context { s with queue := queue } := hs.1.congr rfl rfl rfl
  have hfollowed := process_followed hpopped hlimit hprocess
  exact ⟨hfollowed.laidOut hpopped, hfollow s r queue _ hs.2 hpop hpopped hfollowed⟩

/-- The stores of an explored session fit each other and the image. -/
theorem Explored.laidOut
    (h : Explored image context (fun limits => 1 ≤ limits.blockInstructions) s) :
    LaidOut image context s :=
  (h.keeps_laidOut (P := fun _ => True) (fun _ hl => hl) trivial (fun _ _ _ _ _ => trivial)
    (fun _ _ _ _ _ _ _ _ _ _ => trivial)).1

/-- Instructions and blocks tile the bytes of code. -/
structure Tiled (image : Image) (context : DecodeContext) (s : Session) : Prop where
  /-- The indexed addresses are the leads of code. -/
  indexed_iff_lead : ∀ a, (∃ i, s.code.get? a = some i) ↔ s.bytes.get a = ⟨.code, true⟩
  /-- An indexed instruction is what decoding the rest of its segment gives. -/
  decoded : ∀ a i, s.code.get? a = some i →
    ∃ tail, image.tail? a = some tail ∧ decode context tail = .ok i
  /-- Its bytes are those of the image. -/
  bytes_eq : ∀ a i, s.code.get? a = some i → image.bytes? a i.length = some i.bytes
  /-- All of them are code, and only the first is a lead. -/
  marked : ∀ a i, s.code.get? a = some i → ∀ b, a.Spans i.length b →
    s.bytes.get b = ⟨.code, b = a⟩
  /-- Every byte of code belongs to one indexed instruction. -/
  owned : ∀ b, (s.bytes.get b).kind = .code →
    ∃ a i, s.code.get? a = some i ∧ a.Spans i.length b
      ∧ ∀ a' i', s.code.get? a' = some i' → a'.Spans i'.length b → a' = a ∧ i' = i
  /-- The bytes of code are those that the blocks cover. -/
  code_iff_block : ∀ a, (s.bytes.get a).kind = .code ↔
    ∃ id b, s.blocks.get? id = some b ∧ b.contains a
  /-- No byte is covered by two blocks. -/
  disjoint : ∀ id id' b b' a, s.blocks.get? id = some b → s.blocks.get? id' = some b' →
    b.contains a → b'.contains a → id = id'
  /-- A block starts at an instruction and ends where one of its instructions ends. -/
  boundaries : ∀ id b, s.blocks.get? id = some b →
    (∃ i, s.code.get? b.start = some i)
      ∧ ∃ a i, s.code.get? a = some i ∧ b.contains a ∧ i.next a = b.stop

/-- A block starts with an instruction. -/
theorem LaidOut.exists_first {id : Nat} {b : Block} (h : LaidOut image context s)
    (hget : s.blocks.get? id = some b) : ∃ i, s.code.get? b.start = some i := by
  rcases h.filled hget with ⟨is, i, hfill⟩
  have hrun := hfill.run
  cases is with
  | nil => exact ⟨i, hrun.1⟩
  | cons j js => exact ⟨j, hrun.1⟩

/-- And it ends where one of its instructions ends. -/
theorem LaidOut.exists_last {id : Nat} {b : Block} (h : LaidOut image context s)
    (hget : s.blocks.get? id = some b) :
    ∃ a i, s.code.get? a = some i ∧ b.contains a ∧ i.next a = b.stop := by
  rcases h.filled hget with ⟨is, i, hfill⟩
  have hspan := Run.spans_last (h.isRun_image hfill.run)
  have hstop := hfill.stop_eq h.toIndexed
  rw [Run.stop_append] at hstop
  exact ⟨Run.stop b.start is, i, (isRun_append.mp hfill.run).2.1,
    hfill.contains_iff.mpr hspan, hstop⟩

/-- Instructions and blocks tile the code of every session that exploring leads to. All of it is
    read off the layout that every step keeps. -/
theorem Explored.tiled
    (h : Explored image context (fun limits => 1 ≤ limits.blockInstructions) s) :
    Tiled image context s := by
  have hlaid := h.laidOut
  refine ⟨?_, ?_, ?_, ?_, ?_, ?_, ?_, ?_⟩
  · intro a
    exact hlaid.get_eq_lead_iff.symm
  · intro a i hi
    exact (Image.instructionAt?_eq_some (hlaid.decoded hi)).2.2.2.2.2
  · intro a i hi
    exact (Image.instructionAt?_eq_some (hlaid.decoded hi)).2.2.2.2.1
  · intro a i hi b hb
    exact hlaid.marked hi hb
  · -- A byte of code has an owner, and owners of one byte are one.
    intro b hb
    rcases hlaid.covered hb with ⟨a, i, hi, hspan⟩
    refine ⟨a, i, hi, hspan, fun a' i' hi' hspan' => ?_⟩
    have heq := hlaid.unique hi' hi hspan' hspan
    rw [heq, hi, Option.some.injEq] at hi'
    exact ⟨heq, hi'.symm⟩
  · intro a
    exact hlaid.kind_eq_code_iff
  · intro id id' b b' a hb hb' hin hin'
    exact hlaid.wellFormed.disjoint hb hb' hin hin'
  · intro id b hb
    exact ⟨hlaid.exists_first hb, hlaid.exists_last hb⟩

end Sessions

/-- Two instructions and a jump back to the second of them. -/
def jumpBack : Image := Image.ofBytes #[0x90, 0x90, 0xEB, 0xFD] 0

/-- The jump lands inside the block that it ends, so the block is cut. -/
theorem tiled_jumpBack :
    ∃ s, Explorer.analyze ⟨jumpBack, {}, {}⟩ (fun _ => false) ⟨0, 0⟩ .entry .fresh
        = .ok (s, .ok ())
      ∧ s.blocks.size = 2 ∧ Tiled jumpBack {} s := by
  have hfound : (Explorer.analyze ⟨jumpBack, {}, {}⟩ (fun _ => false) ⟨0, 0⟩ .entry
      .fresh).toOption.any (fun x => x.2.isOk && decide (x.1.blocks.size = 2)) = true := by
    decide +kernel
  rcases exists_session_of_any (fun s => decide (s.blocks.size = 2)) hfound with ⟨s, hcall, hsize⟩
  exact ⟨s, hcall, of_decide_eq_true hsize,
    Explored.tiled (Explored.fresh.analyze {} (by decide) _ _ _ hcall)⟩

end Disasm86
