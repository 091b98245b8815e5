import Disasm86.Proofs.Refusals

/-!
# What an Accepted Slot Does to Its Target

A slot of a jump table is accepted if its word leads to a byte that is unknown or leads an
instruction. The byte is looked at before the slot is marked, and marking the slot turns its two
bytes into data. So what was found plausible is no longer plausible if it is one of these two.

That the target is not the first of them is checked, that it is not the second is not. A slot
whose word names its own second byte is therefore accepted, and its target lands in the data that
accepting it has made. `Explorer.Accepts.target_plausible_iff` says that this is the only way in
which accepting a slot can spoil its target.

Acceptance is described by what can be seen of it, that the slot is marked and its target queued.
`Explorer.accepts_iff` gives the conditions under which it happens, for any session at all.

## Main definitions

* `Explorer.Accepts`: The slot of a reference is accepted, with the target that it leads to.
* `Explorer.Acceptable`: Nothing speaks against a slot.

## Theorems

* `ReferenceQueue.eq_of_push_eq`: The queue tells what has been pushed.
* `Explorer.Acceptable.readSlot_eq`: A slot is taken if nothing speaks against it.
* `Explorer.accepts_iff`: In no other case is it accepted.
* `Explorer.Accepts.get_readSlot`: The marks behind the acceptance of a slot.
* `Explorer.Accepts.target_plausible_iff`: The target stays plausible unless it is the second byte
  of the slot.
-/

namespace Disasm86

/-- Two references that leave the same queue behind are the same, whatever is queued after
    them. -/
theorem ReferenceQueue.eq_of_push_eq {q : ReferenceQueue} {r r' last : Reference}
    (h : (q.push r).push last = (q.push r').push last) : r = r' := by
  have hpending : ∀ x, ((q.push x).push last).pending.Perm ([x] ++ (last :: q.pending)) := by
    intro x
    refine ((q.push x).pending_push_perm last).trans ?_
    exact ((q.pending_push_perm x).cons last).trans (List.Perm.swap x last q.pending)
  have hperm : ([r] ++ (last :: q.pending)).Perm ([r'] ++ (last :: q.pending)) := by
    refine (hpending r).symm.trans ?_
    rw [h]
    exact hpending r'
  exact List.singleton_perm_singleton.mp ((List.perm_append_right_iff _).mp hperm)

namespace Explorer

variable {e : Explorer} {s : Session} {r : Reference} {target : Address}

/-- Reading the slot of a reference marks it as data, and queues the target and then the slot behind
    it. This is what acceptance comes to, without saying when it happens. -/
structure Accepts (e : Explorer) (s : Session) (r : Reference) (target : Address) : Prop where
  marked : s.bytes.mark r.slot (r.slot.advance 2) .data = .ok (e.readSlot r s).bytes
  queued : (e.readSlot r s).queue = (s.queue.push ⟨.indexedJump, r.source, target, r.slot⟩).push
    (.probe r.source (r.slot.advance 2))

/-- What has to be true of a slot and of the address that its word leads to. The slot is judged by
    the bytes as they are before it is marked. -/
structure Acceptable (e : Explorer) (s : Session) (r : Reference) (target : Address) : Prop where
  below : s.tableSlots.getD r.source 0 < e.limits.tableSlots
  word : ∃ word, e.image.bytes? r.slot 2 = some word
    ∧ target = ⟨r.source.segment, Int32.ofNat (littleEndian word)⟩
  unknown : s.bytes.isUnknownBetween r.slot (r.slot.advance 2)
  inside : e.image.contains target
  lands : isPlausibleTarget (s.bytes.get target)
  /-- Only the first byte of the slot is ruled out. -/
  other : target ≠ r.slot

/-- The slot is looked up, and the rest are tests. -/
instance (e : Explorer) (s : Session) (r : Reference) (target : Address) :
    Decidable (e.Acceptable s r target) :=
  decidable_of_iff (s.tableSlots.getD r.source 0 < e.limits.tableSlots
      ∧ (∃ word ∈ e.image.bytes? r.slot 2,
        target = ⟨r.source.segment, Int32.ofNat (littleEndian word)⟩)
      ∧ s.bytes.isUnknownBetween r.slot (r.slot.advance 2) ∧ e.image.contains target
      ∧ isPlausibleTarget (s.bytes.get target) ∧ target ≠ r.slot)
    (by
      constructor
      · rintro ⟨below, word, unknown, inside, lands, other⟩
        exact ⟨below, word, unknown, inside, lands, other⟩
      · rintro ⟨below, word, unknown, inside, lands, other⟩
        exact ⟨below, word, unknown, inside, lands, other⟩)

/-- The offsets of a slot that can be read are far from the ends of the 32-bit range. -/
theorem Acceptable.bounds (h : e.Acceptable s r target) :
    0 ≤ r.slot.offset.toInt ∧ r.slot.offset.toInt + 2 < 0x80000000 := by
  rcases h.word with ⟨word, hword, -⟩
  rcases Image.bytes?_eq_some hword with ⟨h0, hend, -⟩
  exact ⟨h0, by omega⟩

/-- Such a slot can be marked. -/
theorem Acceptable.mark_eq_ok (h : e.Acceptable s r target) :
    s.bytes.mark r.slot (r.slot.advance 2) .data = .ok (s.bytes.put r.slot .data 2) := by
  have hfree := (s.bytes.isUnknownBetween_advance h.bounds.1 h.bounds.2).mp h.unknown
  exact s.bytes.mark_advance h.bounds.1 h.bounds.2 (by decide) (by decide) hfree

/-- A slot is taken into its table if nothing speaks against it. -/
theorem Acceptable.readSlot_eq (h : e.Acceptable s r target) :
    e.readSlot r s = s.takeSlot r.source r.slot target := by
  rcases h.word with ⟨word, hword, htarget⟩
  unfold readSlot
  rw [if_neg (Nat.not_le_of_lt h.below), hword]
  simp only [← htarget, h.unknown, h.inside, h.lands, bne_iff_ne.mpr h.other, Bool.and_self,
    if_true, acceptSlot, h.mark_eq_ok]
  rfl

/-- A slot is accepted if nothing speaks against it, and in no other case. -/
theorem accepts_iff : e.Accepts s r target ↔ e.Acceptable s r target := by
  constructor
  · rintro ⟨hmarked, hqueued⟩
    have hread := readSlot_slotRead e s r
    generalize e.readSlot r s = s' at hmarked hqueued hread
    cases hread with
    | refused =>
        -- Two more references are queued, so the session is not the one from before.
        have hlength := congrArg (fun q => q.pending.length) hqueued
        simp only [(ReferenceQueue.pending_push_perm _ _).length_eq, List.length_cons] at hlength
        omega
    | accepted word hword hlimit hfree hin hlanding hself =>
        have htarget := ReferenceQueue.eq_of_push_eq hqueued
        simp only [Reference.mk.injEq, true_and, and_true] at htarget
        rw [htarget] at hin hlanding hself
        rcases Image.bytes?_eq_some hword with ⟨h0, hend, -⟩
        have hunknown := (s.bytes.isUnknownBetween_advance h0 (by omega)).mpr hfree
        exact ⟨hlimit, ⟨word, hword, htarget.symm⟩, hunknown, hin, hlanding, hself⟩
  · intro h
    refine ⟨?_, ?_⟩
    · rw [h.mark_eq_ok, h.readSlot_eq]
      rfl
    · rw [h.readSlot_eq]
      rfl

/-- Behind the acceptance of a slot its two bytes are data and all others are as before. -/
theorem Accepts.get_readSlot (h : e.Accepts s r target) (a : Address) :
    (e.readSlot r s).bytes.get a
      = if r.slot.Spans 2 a then ⟨.data, a = r.slot⟩ else s.bytes.get a := by
  have hok := accepts_iff.mp h
  rw [hok.readSlot_eq]
  exact s.bytes.get_put r.slot a .data 2 hok.bounds.1 hok.bounds.2

/-- The target of a slot that is accepted was plausible, and it stays as it was unless it is the
    second byte of the slot. That byte is data from then on, so the target is no longer
    plausible. -/
theorem Accepts.target_plausible_iff (h : e.Accepts s r target) :
    isPlausibleTarget (s.bytes.get target)
      ∧ (isPlausibleTarget ((e.readSlot r s).bytes.get target) ↔ target ≠ r.slot.advance 1)
      ∧ (target ≠ r.slot.advance 1 →
        (e.readSlot r s).bytes.get target = s.bytes.get target)
      ∧ (target = r.slot.advance 1 → (e.readSlot r s).bytes.get target = ⟨.data, false⟩) := by
  have hok := accepts_iff.mp h
  have hbounds := hok.bounds
  -- The target is not the first byte of the slot, so in the slot it is the second.
  have hspans : r.slot.Spans 2 target ↔ target = r.slot.advance 1 := by
    rw [Address.spans_succ_iff hbounds.1 (by omega), Address.spans_one_iff]
    exact or_iff_right hok.other
  have hkept : target ≠ r.slot.advance 1 →
      (e.readSlot r s).bytes.get target = s.bytes.get target := by
    intro hne
    rw [h.get_readSlot, if_neg (mt hspans.mp hne)]
  have hspoilt : target = r.slot.advance 1 →
      (e.readSlot r s).bytes.get target = ⟨.data, false⟩ := by
    intro heq
    rw [h.get_readSlot, if_pos (hspans.mpr heq), decide_eq_false hok.other]
  refine ⟨hok.lands, ⟨fun hafter heq => ?_, fun hne => ?_⟩, hkept, hspoilt⟩
  · rw [hspoilt heq] at hafter
    cases hafter
  · rw [hkept hne]
    exact hok.lands

/-- The first slot of a table, whose word leads behind the table. -/
theorem target_plausible_caseJump :
    let e : Explorer := ⟨caseJump, {}, {}⟩
    let r := Reference.probe ⟨0, 0⟩ ⟨0, 5⟩
    ∃ s outcome, e.analyze (fun asked => asked = 2) ⟨0, 0⟩ .entry .fresh = .ok (s, outcome)
      ∧ e.Accepts s r ⟨0, 0x0B⟩
      ∧ isPlausibleTarget ((e.readSlot r s).bytes.get ⟨0, 0x0B⟩) := by
  intro e r
  have hfound : (e.analyze (fun asked => asked = 2) ⟨0, 0⟩ .entry .fresh).toOption.any
      (fun x => decide (e.Acceptable x.1 r ⟨0, 0x0B⟩)) = true := by
    decide +kernel
  rcases exists_ok_of_any hfound with ⟨⟨s, outcome⟩, hrun, hok⟩
  have haccepts : e.Accepts s r ⟨0, 0x0B⟩ := accepts_iff.mpr (of_decide_eq_true hok)
  exact ⟨s, outcome, hrun, haccepts, haccepts.target_plausible_iff.2.1.mpr (by decide)⟩

/-- A jump through a table whose only word is the address of its own second byte. -/
def selfNaming : Image := Image.ofBytes #[0x2E, 0xFF, 0xA7, 0x05, 0x00, 0x06, 0x00] 0

/-- The slot is accepted when its turn comes, and its target lands in it. -/
theorem target_spoilt_selfNaming :
    let e : Explorer := ⟨selfNaming, {}, {}⟩
    let r := Reference.probe ⟨0, 0⟩ ⟨0, 5⟩
    ∃ s outcome, e.analyze (fun asked => asked = 2) ⟨0, 0⟩ .entry .fresh = .ok (s, outcome)
      ∧ s.queue.pending = [r] ∧ e.Accepts s r ⟨0, 6⟩ ∧ isPlausibleTarget (s.bytes.get ⟨0, 6⟩)
      ∧ ¬ isPlausibleTarget ((e.readSlot r s).bytes.get ⟨0, 6⟩) := by
  intro e r
  have hfound : (e.analyze (fun asked => asked = 2) ⟨0, 0⟩ .entry .fresh).toOption.any
      (fun x => decide (e.Acceptable x.1 r ⟨0, 6⟩ ∧ x.1.queue.pending = [r]
        ∧ ¬ isPlausibleTarget ((e.readSlot r x.1).bytes.get ⟨0, 6⟩))) = true := by
    decide +kernel
  rcases exists_ok_of_any hfound with ⟨⟨s, outcome⟩, hrun, hall⟩
  rcases of_decide_eq_true hall with ⟨hok, hpending, hspoilt⟩
  exact ⟨s, outcome, hrun, hpending, accepts_iff.mpr hok, hok.lands, hspoilt⟩

end Explorer

end Disasm86
