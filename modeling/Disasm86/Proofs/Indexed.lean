import Disasm86.Proofs.Stretch

/-!
# The Byte Map and the Index

The first half of what ties the stores of a session together: the bytes marked as code
are those of the indexed instructions, one lead for each.

Three facts carry it. An indexed instruction is the one that the image has there, its
bytes are marked with a lead on the first, and there are no other bytes of code. That
the index and the leads agree follows from these, and so does everything about how
instructions lie next to each other. Two instructions cannot overlap, because the lead
of the later one would have to lie inside the earlier; so an instruction inside a run
is one of the run's own, and the last instruction before an address is the one that
ends there.

Instructions are taken over one by one, and only where nothing was known before, so
`Indexed.take` is all that decoding needs, and `Indexed.takeRun` iterates it.

## Main definitions

* `Indexed`: The byte map and the index of a session fit each other and the image.

## Theorems

* `Indexed.get_eq_lead_iff`: The leads of code are the indexed addresses.
* `Indexed.unique`: A byte belongs to one instruction at most.
* `Indexed.eq_of_next_eq`: One instruction at most ends at an address.
* `Indexed.le_of_lt_next`: No instruction starts inside another.
* `Indexed.takeRun`: A fresh run can be taken over.
* `Indexed.get?_takeRun`: What is indexed stays so.
* `Indexed.of_bytes`: Marking unknown bytes as something else than code does no harm.
* `Indexed.exists_append`: An instruction inside a run is one of the run's.
* `Indexed.lastBefore?_next`: The last instruction before the end of an instruction.
-/

namespace Disasm86

/-- The indexed instructions are those of the image, and their bytes are the bytes of code, each
    instruction with a lead of its own. It follows that no two of them overlap, without a condition
    that says so. -/
structure Indexed (image : Image) (context : DecodeContext) (s : Session) : Prop where
  decoded : ∀ {a i}, s.code.get? a = some i → image.instructionAt? context a = some i
  marked : ∀ {a i b}, s.code.get? a = some i → a.Spans i.length b →
    s.bytes.get b = ⟨.code, b = a⟩
  covered : ∀ {b}, (s.bytes.get b).kind = .code →
    ∃ a i, s.code.get? a = some i ∧ a.Spans i.length b

theorem Session.get?_fresh (a : Address) : Session.fresh.code.get? a = none := by
  simp [Session.fresh, CodeIndex.get?]

namespace Indexed

variable {image : Image} {context : DecodeContext} {s s' : Session} {a b start : Address}
  {i j : Instruction} {is : List Instruction}

/-- An instruction is not empty, so it spans its first byte. -/
theorem spans_self (h : Indexed image context s) (hi : s.code.get? a = some i) :
    a.Spans i.length a :=
  Address.spans_self (Image.instructionAt?_eq_some (h.decoded hi)).1

/-- An address is indexed exactly if its byte is the lead of code. -/
theorem get_eq_lead_iff (h : Indexed image context s) :
    s.bytes.get a = ⟨.code, true⟩ ↔ ∃ i, s.code.get? a = some i := by
  constructor
  · intro hlead
    rcases h.covered (b := a) (by rw [hlead]) with ⟨c, i, hi, hspan⟩
    have hmark := h.marked hi hspan
    rw [hlead, ByteMark.mk.injEq] at hmark
    have heq : a = c := of_decide_eq_true hmark.2.symm
    exact ⟨i, by rw [heq]; exact hi⟩
  · intro hindexed
    rcases hindexed with ⟨i, hi⟩
    rw [h.marked hi (h.spans_self hi), decide_eq_true rfl]

/-- Nothing is indexed where the byte is not the lead of code. -/
theorem get?_eq_none (hs : Indexed image context s)
    (h : s.bytes.get a ≠ ⟨.code, true⟩) : s.code.get? a = none := by
  cases hi : s.code.get? a with
  | none => rfl
  | some i => exact absurd (hs.get_eq_lead_iff.mpr ⟨i, hi⟩) h

/-- Two instructions that share a byte are one. The later would otherwise start inside
    the earlier, where no byte is a lead. -/
theorem unique (h : Indexed image context s) {c : Address} (hi : s.code.get? a = some i)
    (hj : s.code.get? b = some j) (hai : a.Spans i.length c) (hbj : b.Spans j.length c) :
    a = b := by
  -- First the case in which one starts inside the other, as its first byte is a lead.
  have hstart : ∀ {a b i j}, s.code.get? a = some i → s.code.get? b = some j →
      a.Spans i.length b → a = b := by
    intro a b i j hi hj hspan
    have hmark := h.marked hi hspan
    rw [h.marked hj (h.spans_self hj), ByteMark.mk.injEq, decide_eq_true rfl] at hmark
    exact (of_decide_eq_true hmark.2.symm).symm
  have hseg : b.segment = a.segment := hbj.1.symm.trans hai.1
  have ha1 := hai.2.1
  have ha2 := hai.2.2
  have hb1 := hbj.2.1
  have hb2 := hbj.2.2
  by_cases hle : a.offset.toInt ≤ b.offset.toInt
  · exact hstart hi hj ⟨hseg, hle, by omega⟩
  · exact (hstart hj hi ⟨hseg.symm, by omega, by omega⟩).symm

/-- Instructions that end at the same address are one, since they share their last
    byte. -/
theorem eq_of_next_eq (h : Indexed image context s) (hi : s.code.get? a = some i)
    (hj : s.code.get? b = some j) (hnext : i.next a = j.next b) : a = b := by
  have hia := Image.instructionAt?_eq_some (h.decoded hi)
  have hjb := Image.instructionAt?_eq_some (h.decoded hj)
  have hna := Image.toInt_next (h.decoded hi)
  have hnb := Image.toInt_next (h.decoded hj)
  have hpos := hia.1
  have hpos' := hjb.1
  rw [hnext] at hna
  have hseg : b.segment = a.segment := (congrArg Address.segment hnext).symm
  -- The later of the two starts lies in both.
  by_cases hle : a.offset.toInt ≤ b.offset.toInt
  · exact h.unique hi hj ⟨hseg, hle, by omega⟩ (h.spans_self hj)
  · exact h.unique hi hj (h.spans_self hi) ⟨hseg.symm, by omega, by omega⟩

/-- An instruction that ends behind the start of another does not start before it. -/
theorem le_of_lt_next (h : Indexed image context s) (hi : s.code.get? a = some i)
    (hj : s.code.get? b = some j) (hseg : b.segment = a.segment)
    (hlt : b.offset.toInt < (i.next a).offset.toInt) : b.offset.toInt ≤ a.offset.toInt := by
  rw [Image.toInt_next (h.decoded hi)] at hlt
  by_cases hle : a.offset.toInt ≤ b.offset.toInt
  · have heq := h.unique hi hj ⟨hseg, hle, hlt⟩ (h.spans_self hj)
    exact Int.le_of_eq (by rw [heq])
  · omega

/-- A fresh session has no instructions and no code. -/
theorem fresh : Indexed image context .fresh where
  decoded := by
    intro a i hi
    rw [Session.get?_fresh] at hi
    cases hi
  marked := by
    intro a i b hi
    rw [Session.get?_fresh] at hi
    cases hi
  covered := by
    intro b hb
    rw [show Session.fresh.bytes = ByteMap.empty from rfl, ByteMap.get_empty] at hb
    cases hb

/-- Nothing changes for bytes that were unknown and have become something else than
    code. -/
theorem of_bytes (h : Indexed image context s) (hcode : s'.code = s.code)
    (hbytes : ∀ a, s'.bytes.get a = s.bytes.get a
      ∨ (s.bytes.get a).kind = .unknown ∧ (s'.bytes.get a).kind ≠ .code) :
    Indexed image context s' where
  decoded := by
    intro a i hi
    rw [hcode] at hi
    exact h.decoded hi
  marked := by
    -- The bytes of an instruction are code, so they were not unknown and are as before.
    intro a i b hi hspan
    rw [hcode] at hi
    have hold := h.marked hi hspan
    rcases hbytes b with heq | ⟨hunknown, -⟩
    · rw [heq, hold]
    · rw [hold] at hunknown
      cases hunknown
  covered := by
    intro b hb
    rcases hbytes b with heq | ⟨-, hnot⟩
    · rw [heq] at hb
      rw [hcode]
      exact h.covered hb
    · exact absurd hb hnot

/-- An instruction of the image is taken over where nothing was known. -/
theorem take (h : Indexed image context s)
    (hi : image.instructionAt? context start = some i)
    (hfree : ∀ a, start.Spans i.length a → (s.bytes.get a).kind = .unknown) :
    Indexed image context (s.take start i) where
  decoded := by
    intro a j hj
    rw [Session.take, CodeIndex.get?_insert] at hj
    by_cases ha : a = start
    · rw [if_pos ha, Option.some.injEq] at hj
      rw [ha, ← hj]
      exact hi
    · rw [if_neg ha] at hj
      exact h.decoded hj
  marked := by
    intro a j b hj hspan
    rw [Session.take, CodeIndex.get?_insert] at hj
    rw [Session.take_get s hi]
    by_cases ha : a = start
    · rw [if_pos ha, Option.some.injEq] at hj
      rw [ha, ← hj] at hspan
      rw [if_pos hspan, ha]
    · rw [if_neg ha] at hj
      have hold := h.marked hj hspan
      -- A byte of an older instruction is code already, so it is not one of the new ones.
      have hout : ¬ start.Spans i.length b := by
        intro hin
        have hunknown := hfree b hin
        rw [hold] at hunknown
        cases hunknown
      rw [if_neg hout, hold]
  covered := by
    intro b hb
    rw [Session.take_get s hi] at hb
    by_cases hin : start.Spans i.length b
    · exact ⟨start, i, by rw [Session.take, CodeIndex.get?_insert, if_pos rfl], hin⟩
    · rw [if_neg hin] at hb
      rcases h.covered hb with ⟨a, j, hj, hspan⟩
      -- The start was unknown, so no older instruction stands there.
      have ha : a ≠ start := by
        intro heq
        have hunknown := hfree start (Address.spans_self (Image.instructionAt?_eq_some hi).1)
        rw [← heq, h.marked hj (h.spans_self hj)] at hunknown
        cases hunknown
      exact ⟨a, j, by rw [Session.take, CodeIndex.get?_insert, if_neg ha]; exact hj, hspan⟩

/-- A fresh run is taken over instruction by instruction. -/
theorem takeRun {e : Explorer} (h : Indexed e.image e.context s) (hrun : Fresh e s start is) :
    Indexed e.image e.context (s.takeRun start is) := by
  induction is generalizing s start with
  | nil => exact h
  | cons i is ih =>
      have hi := hrun.run.1
      have hsplit : ∀ a, start.Spans (Run.size (i :: is)) a ↔
          start.Spans i.length a ∨ (i.next start).Spans (Run.size is) a :=
        fun a => Run.spans_cons_iff hi
      have hfirst : ∀ a, start.Spans i.length a → (s.bytes.get a).kind = .unknown :=
        fun a ha => hrun.unknown a ((hsplit a).mpr (Or.inl ha))
      refine ih (h.take hi hfirst) ⟨hrun.run.2, fun a ha => ?_⟩
      rw [Session.take_get s hi, if_neg (Run.not_spans_first hi ha)]
      exact hrun.unknown a ((hsplit a).mpr (Or.inr ha))

/-- What is indexed stays so while a fresh run is taken over, because it lies in bytes
    that are known. -/
theorem get?_takeRun {e : Explorer} (h : Indexed image context s) (hrun : Fresh e s start is)
    (hi : s.code.get? a = some i) : (s.takeRun start is).code.get? a = some i := by
  have hout : ¬ start.Spans (Run.size is) a := by
    intro hspan
    have hunknown := hrun.unknown a hspan
    rw [h.marked hi (h.spans_self hi)] at hunknown
    cases hunknown
  rw [Session.takeRun_get?_outside s hrun.run hout, hi]

/-- A run of the index is one of the image. -/
theorem isRun_image (h : Indexed image context s) (hrun : IsRun s.code.get? start is) :
    IsRun (image.instructionAt? context) start is :=
  hrun.imp fun _ _ hi => h.decoded hi

/-- Every byte of a run in the index is code. -/
theorem kind_of_run (h : Indexed image context s) (hrun : IsRun s.code.get? start is)
    (ha : start.Spans (Run.size is) a) : (s.bytes.get a).kind = .code := by
  induction is generalizing start with
  | nil => exact absurd ha (Address.not_spans_zero start a)
  | cons i is ih =>
      rcases (Run.spans_cons_iff (h.decoded hrun.1)).mp ha with hfirst | hrest
      · rw [h.marked hrun.1 hfirst]
      · exact ih hrun.2 hrest

/-- An indexed instruction that starts inside a run is one of the run's: the run can be
    parted in front of it. -/
theorem exists_append (h : Indexed image context s) (hrun : IsRun s.code.get? start is)
    (hin : start.Spans (Run.size is) a) (ha : s.code.get? a = some j) :
    ∃ front back, is = front ++ j :: back ∧ Run.stop start front = a := by
  induction is generalizing start with
  | nil => exact absurd hin (Address.not_spans_zero start a)
  | cons i is ih =>
      rcases (Run.spans_cons_iff (h.decoded hrun.1)).mp hin with hfirst | hrest
      -- It shares a byte with the first instruction of the run, so it is that one.
      · have heq : start = a := h.unique hrun.1 ha hfirst (h.spans_self ha)
        have hij : i = j := by
          rw [← heq, hrun.1, Option.some.injEq] at ha
          exact ha
        exact ⟨[], is, by rw [hij, List.nil_append], heq⟩
      · rcases ih hrun.2 hrest with ⟨front, back, heq, hstop⟩
        exact ⟨i :: front, back, by rw [heq, List.cons_append], hstop⟩

/-- The last instruction before the end of an instruction is that instruction, because
    another one would start inside of it. -/
theorem lastBefore?_next (h : Indexed image context s) (hi : s.code.get? a = some i) :
    s.code.lastBefore? (i.next a) = some (a, i) := by
  have hnext := Image.toInt_next (h.decoded hi)
  have hpos := (Image.instructionAt?_eq_some (h.decoded hi)).1
  have hseg : (i.next a).segment = a.segment := rfl
  have hlast : s.code.instructions.getEntryLT? (i.next a) = some (a, i) := by
    refine getEntryLT?_eq_some_iff.mpr ⟨hi, ?_, fun b j hj hb => ?_⟩
    · rw [Address.compare_eq_lt_iff_of_segment_eq hseg.symm]
      omega
    · -- One that starts behind `a` and before the end starts inside the instruction.
      rw [Address.isLE_compare_iff]
      intro hab
      rcases Address.between_of_compare hseg hab (by rw [hb]; rfl) with ⟨hbs, hlt, -⟩
      rw [Address.compare_eq_lt_iff_of_segment_eq (hbs.trans hseg.symm)] at hb
      have hle := h.le_of_lt_next hi hj hbs hb
      omega
  rw [CodeIndex.lastBefore?, hlast, Option.filter_some, if_pos (decide_eq_true hseg.symm)]

end Indexed

end Disasm86
