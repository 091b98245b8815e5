import Disasm86.Proofs.Pending
import Disasm86.Proofs.Visit

/-!
# The Workload of an Exploration

Why exploring comes to an end. Following a reference takes it out of the queue and may
put others in, up to two; but that happens only where bytes of the image become known,
and no byte becomes unknown again. So if every unknown byte of the image is counted
twice and every pending reference once, each step lowers the sum.

Nothing is assumed of the session. It may hold references that nobody would queue and
marks that no decoding leaves behind, because the argument never asks where they came
from.

The bound that `Explorer.run` recurses on counts all bytes of the image, and so it is
never smaller than the workload. Hence a run that is not cancelled ends with an empty
queue, and the bound never cuts it short.

## Main definitions

* `Image.addresses`: The addresses of all bytes of an image.
* `Image.unknownCount`: How many bytes of an image are unknown.
* `Explorer.workload`: Pending references, and each unknown byte twice.

## Theorems

* `Image.mem_addresses_iff`: The addresses in the list are those of the bytes of an image.
* `Image.unknownCount_lt`: Fewer bytes are unknown once one of them is known.
* `decodeBlock_workload_le`, `readSlot_workload_le`: New references are paid for by bytes.
* `process_workload_lt`: Following a reference lowers the workload.
* `workload_le_bound`: The bound of a run covers the workload.
* `run_pending`: A run that is not cancelled leaves nothing pending.
-/

namespace Disasm86

/-- The addresses of all bytes of the segment of a number. Numbers that do not fit into
    the segment of an address have none. -/
def Segment.addresses (s : Segment) (number : Nat) : List Address :=
  if number < 0x80000000 then
    (List.range s.data.size).map fun k => ⟨Int32.ofNat number, Int32.ofNat (s.start + k)⟩
  else []

/-- The addresses of a segment are those that it covers, under its number. -/
theorem Segment.mem_addresses_iff {s : Segment} {number : Nat} {a : Address} :
    a ∈ s.addresses number ↔ a.segment.toInt = number
      ∧ (s.start : Int) ≤ a.offset.toInt ∧ a.offset.toInt < s.stop := by
  have hfits := s.fits
  have hstop : s.stop = s.start + s.data.size := rfl
  have hstart : s.start = s.base.toNat := rfl
  simp only [segmentSize] at hfits
  -- Numbers and offsets are small enough to be words.
  have hword : ∀ {n : Nat}, n < 0x80000000 → (Int32.ofNat n).toInt = n := fun h =>
    Int32.toInt_ofNat_of_lt h
  unfold addresses
  constructor
  · intro h
    by_cases hnumber : number < 0x80000000
    · rw [if_pos hnumber] at h
      rcases List.mem_map.mp h with ⟨k, hk, rfl⟩
      rw [List.mem_range] at hk
      have hoffset := hword (show s.start + k < 0x80000000 by omega)
      exact ⟨hword hnumber, by rw [hoffset]; omega, by rw [hoffset]; omega⟩
    · rw [if_neg hnumber] at h
      cases h
  · intro h
    rcases h with ⟨hseg, hlo, hhi⟩
    have hlt := a.segment.toInt_lt
    rw [if_pos (by omega)]
    refine List.mem_map.mpr ⟨(a.offset.toInt - s.start).toNat, List.mem_range.mpr (by omega), ?_⟩
    rcases a with ⟨segment, offset⟩
    simp only [Address.mk.injEq, ← Int32.toInt_inj] at hseg hlo hhi hlt ⊢
    rw [hword (by omega), hword (by omega)]
    omega

namespace Image

/-- The addresses of all bytes of an image, segment by segment. -/
def addresses (image : Image) : List Address :=
  image.segments.toList.zipIdx.flatMap fun x => x.1.addresses x.2

/-- How many bytes of an image nothing is known of. -/
def unknownCount (image : Image) (m : ByteMap) : Nat :=
  image.addresses.countP fun a => (m.get a).isUnknown

variable {image : Image} {a : Address} {m m' : ByteMap}

/-- The addresses of an image are those of its bytes. -/
theorem mem_addresses_iff : a ∈ image.addresses ↔ image.contains a := by
  rw [contains_iff]
  unfold addresses segment?
  rw [List.mem_flatMap]
  constructor
  · intro h
    rcases h with ⟨⟨s, number⟩, hs, ha⟩
    rw [List.mem_zipIdx_iff_getElem?, Array.getElem?_toList] at hs
    rcases Segment.mem_addresses_iff.mp ha with ⟨hseg, hspan⟩
    -- The number of a segment is where it stands, so it is not negative.
    have hneg : ¬ a.segment < 0 := by
      rw [Int32.lt_iff_toInt_lt, Int32.toInt_zero]
      omega
    rw [if_neg hneg, hseg, Int.toNat_natCast]
    exact ⟨s, hs, hspan⟩
  · intro h
    rcases h with ⟨s, hs, hspan⟩
    by_cases hneg : a.segment < 0
    · rw [if_pos hneg] at hs
      cases hs
    · rw [if_neg hneg] at hs
      rw [Int32.lt_iff_toInt_lt, Int32.toInt_zero] at hneg
      refine ⟨(s, a.segment.toInt.toNat), ?_, Segment.mem_addresses_iff.mpr ⟨?_, hspan⟩⟩
      · rw [List.mem_zipIdx_iff_getElem?, Array.getElem?_toList]
        exact hs
      · omega

/-- No more bytes are unknown than there are. Segments with too great a number have bytes without an
    address, so it need not be an equality. -/
theorem unknownCount_le_byteCount (image : Image) (m : ByteMap) :
    image.unknownCount m ≤ image.byteCount := by
  have hsegment : ∀ (s : Segment) (number : Nat), (s.addresses number).length ≤ s.data.size := by
    intro s number
    unfold Segment.addresses
    by_cases hnumber : number < 0x80000000
    · rw [if_pos hnumber]
      exact Nat.le_of_eq (by rw [List.length_map, List.length_range])
    · rw [if_neg hnumber]
      exact Nat.zero_le _
  -- The induction runs over all first numbers and over what has been counted before.
  have hlength : ∀ (segments : List Segment) (first count : Nat),
      count + ((segments.zipIdx first).flatMap fun x => x.1.addresses x.2).length
        ≤ segments.foldl (fun count s => count + s.data.size) count := by
    intro segments
    induction segments with
    | nil =>
        intro first count
        exact Nat.le_refl count
    | cons s rest ih =>
        intro first count
        have hrest := ih (first + 1) (count + s.data.size)
        have hfirst := hsegment s first
        simp only [List.zipIdx_cons, List.flatMap_cons, List.length_append, List.foldl_cons]
        omega
  have hall := hlength image.segments.toList 0 0
  rw [Nat.zero_add, Array.foldl_toList] at hall
  calc image.unknownCount m ≤ image.addresses.length := List.countP_le_length
    _ ≤ image.byteCount := hall

/-- If nothing that was known is forgotten, no more bytes are unknown than before. -/
theorem countP_isUnknown_le (h : ∀ a, (m'.get a).kind = .unknown → (m.get a).kind = .unknown)
    (l : List Address) :
    l.countP (fun a => (m'.get a).isUnknown) ≤ l.countP fun a => (m.get a).isUnknown := by
  refine List.countP_mono_left fun a _ ha => ?_
  simp only [ByteMark.isUnknown, decide_eq_true_eq] at ha ⊢
  exact h a ha

/-- Fewer bytes are unknown once a byte of the image has become known. -/
theorem unknownCount_lt (h : ∀ a, (m'.get a).kind = .unknown → (m.get a).kind = .unknown)
    (hin : image.contains a) (hold : (m.get a).kind = .unknown)
    (hnew : (m'.get a).kind ≠ .unknown) : image.unknownCount m' < image.unknownCount m := by
  -- The byte stands somewhere in the list, and the parts around it count no more than before.
  rcases List.append_of_mem (mem_addresses_iff.mpr hin) with ⟨before, behind, hsplit⟩
  have hbefore := countP_isUnknown_le h before
  have hbehind := countP_isUnknown_le h behind
  have hpos : (m.get a).isUnknown = true := by
    rw [ByteMark.isUnknown, hold, decide_eq_true rfl]
  have hneg : (m'.get a).isUnknown = false := by
    rw [ByteMark.isUnknown]
    exact decide_eq_false hnew
  unfold unknownCount
  rw [hsplit, List.countP_append, List.countP_append, List.countP_cons, List.countP_cons, hpos,
    hneg]
  simp only [if_true, Bool.false_eq_true, if_false]
  omega

end Image

/-- Whether a note puts something into the queue. -/
def Note.isQueued : Note → Bool
  | .queued _ => true
  | _ => false

namespace Session

variable (s : Session)

theorem pending_enqueue (r : Reference) : (s.enqueue r).pending = s.pending + 1 :=
  (s.queue.pending_push_perm r).length_eq

theorem pending_record (r : Reference) : (s.record r).pending = s.pending := by
  simp only [pending, record_stores]

/-- What is pending grows by the notes that queue something. -/
theorem pending_foldl_note (notes : List Note) :
    (notes.foldl note s).pending = s.pending + notes.countP Note.isQueued := by
  induction notes generalizing s with
  | nil => rfl
  | cons n notes ih =>
      rw [List.foldl_cons, ih, List.countP_cons]
      cases n with
      | queued r =>
          simp only [note, pending_enqueue, Note.isQueued, if_true]
          omega
      | recorded r =>
          simp only [note, pending_record, Note.isQueued, Bool.false_eq_true, if_false,
            Nat.add_zero]
      | reported location code message => rfl

end Session

/-- Only a near jump reads a table. -/
theorem transfer?_of_jumpTableSlot? {a slot : Address} {i : Instruction}
    (h : jumpTableSlot? a i = some slot) : i.transfer? = some .nearJump := by
  unfold jumpTableSlot? at h
  split at h
  · rename_i hop _
    rw [Instruction.transfer?, hop]
    rfl
  · cases h

/-- What reads a table does not fall through. -/
theorem fallsThrough_of_jumpTableSlot? {a slot : Address} {i : Instruction} {t : Transfer}
    (hslot : jumpTableSlot? a i = some slot) (ht : i.transfer? = some t) :
    t.fallsThrough = false := by
  rw [transfer?_of_jumpTableSlot? hslot, Option.some.injEq] at ht
  rw [← ht]
  rfl

/-- An instruction queues two references at most. -/
theorem countP_isQueued_emission {a : Address} {i : Instruction} {t : Transfer}
    (ht : i.transfer? = some t) : (emission a i t).countP Note.isQueued ≤ 2 := by
  have htarget : (targetEmission a i t).countP Note.isQueued ≤ 1 := by
    unfold targetEmission
    cases i.branchTarget? a with
    | none => exact Nat.le_refl 1
    | some target =>
        by_cases hreach : isReachableOffset target.offset
        · simp only [if_pos hreach]
          exact Nat.le_refl 1
        · simp only [if_neg hreach]
          exact Nat.zero_le 1
  have hfall : (if t.fallsThrough then
      [Note.queued ⟨.fallThrough, a, i.next a, .nowhere⟩] else []).countP Note.isQueued
        = if t.fallsThrough then 1 else 0 := by
    by_cases hf : t.fallsThrough
    · simp only [if_pos hf]
      rfl
    · simp only [if_neg hf]
      rfl
  unfold emission
  rw [List.countP_append, hfall]
  by_cases hnames : t.namesTarget
  · rw [if_pos hnames, List.countP_append]
    cases hslot : jumpTableSlot? a i with
    | none =>
        -- The target and the fall-through, if there are both.
        have hsome : (if t.fallsThrough then 1 else 0) ≤ 1 := by
          split <;> omega
        simp only [Option.map_none, Option.toList_none, List.countP_nil]
        omega
    | some slot =>
        -- The slot and the target. What reads a table does not fall through.
        rw [if_neg (by simp only [fallsThrough_of_jumpTableSlot? hslot ht, Bool.false_eq_true,
          not_false_eq_true])]
        have hone : [Note.queued (.probe a slot)].countP Note.isQueued = 1 := rfl
        simp only [Option.map_some, Option.toList_some]
        omega
  · rw [if_neg hnames]
    have hzero : [Note.recorded ⟨.transfer t, a, .nowhere, .nowhere⟩].countP Note.isQueued = 0 :=
      rfl
    split <;> omega

namespace Explorer

/-- What is left to do: pending references, and each unknown byte of the image twice. -/
def workload (e : Explorer) (s : Session) : Nat :=
  s.pending + 2 * e.image.unknownCount s.bytes

variable {e : Explorer} {s s' : Session} {start : Address} {is : List Instruction}

/-- Up to two new references are paid for by a byte that becomes known. -/
theorem workload_le_of_lt (hpending : s'.pending ≤ s.pending + 2)
    (hbytes : e.image.unknownCount s'.bytes < e.image.unknownCount s.bytes) :
    e.workload s' ≤ e.workload s := by
  unfold workload
  omega

theorem workload_congr (hqueue : s'.queue = s.queue) (hbytes : s'.bytes = s.bytes) :
    e.workload s' = e.workload s := by
  unfold workload Session.pending
  rw [hqueue, hbytes]

/-- Taking a run over makes no byte unknown that was not. -/
theorem unknown_of_takeRun (hrun : Fresh e s start is) (a : Address)
    (ha : ((s.takeRun start is).bytes.get a).kind = .unknown) :
    (s.bytes.get a).kind = .unknown := by
  by_cases hspan : start.Spans (Run.size is) a
  · exact hrun.unknown a hspan
  · rw [Session.takeRun_get_outside s hrun.run hspan] at ha
    exact ha

theorem unknownCount_takeRun_le (hrun : Fresh e s start is) :
    e.image.unknownCount (s.takeRun start is).bytes ≤ e.image.unknownCount s.bytes :=
  Image.countP_isUnknown_le (unknown_of_takeRun hrun) _

/-- The first byte of a run that is taken over becomes known. -/
theorem unknownCount_takeRun_lt (hrun : Fresh e s start is) (hne : is ≠ []) :
    e.image.unknownCount (s.takeRun start is).bytes < e.image.unknownCount s.bytes := by
  have hspan : start.Spans (Run.size is) start :=
    Address.spans_self (Run.bounds hrun.run hne).2.2
  have hin : e.image.contains start := by
    cases is with
    | nil => exact absurd rfl hne
    | cons i rest =>
        rcases Image.instructionAt?_eq_some hrun.run.1 with ⟨hpos, -, -, hin, -⟩
        exact hin start (Address.spans_self hpos)
  refine Image.unknownCount_lt (unknown_of_takeRun hrun) hin (hrun.unknown start hspan) ?_
  rw [Session.takeRun_kind_inside s hrun.run hspan]
  exact fun h => by cases h

theorem addBlock_stores (s : Session) (b : Block) :
    (s.addBlock b).queue = s.queue ∧ (s.addBlock b).bytes = s.bytes := by
  unfold Session.addBlock
  split
  · exact ⟨rfl, rfl⟩
  · exact ⟨rfl, rfl⟩

/-- Closing a block leaves the queue and the bytes alone, whether it is added or refused. -/
theorem closeBlock_stores (start : Address) (stretch : Stretch) :
    (closeBlock start stretch).queue = stretch.session.queue
      ∧ (closeBlock start stretch).bytes = stretch.session.bytes := by
  unfold closeBlock
  by_cases hstop : stretch.stop = start
  · rw [if_pos hstop]
    exact ⟨rfl, rfl⟩
  · rw [if_neg hstop]
    by_cases hk : stretch.kind = .broken
    · simp only [if_pos hk]
      split
      · exact ⟨rfl, rfl⟩
      · exact addBlock_stores _ _
    · simp only [if_neg hk]
      split
      · exact ⟨rfl, rfl⟩
      · exact addBlock_stores _ _

/-- Decoding a block queues references only if it has taken over an instruction. -/
theorem decodeBlock_workload_le (hlimit : 1 ≤ e.limits.blockInstructions)
    (hdecode : e.decodeBlock start s = .ok s') : e.workload s' ≤ e.workload s := by
  rcases except_map_eq_ok.mp hdecode with ⟨stretch, hstretch, rfl⟩
  have hout := decodeStretch_outcome e e.limits.blockInstructions start s
  rw [hstretch] at hout
  rcases closeBlock_stores start stretch with ⟨hqueue, hbytes⟩
  -- Closing the block costs nothing, so all depends on the stretch.
  rw [workload_congr hqueue hbytes]
  have htake : ∀ is, (s.takeRun start is).pending = s.pending := by
    intro is
    rw [Session.takeRun_eq]
    rfl
  -- A block that queues something has taken over an instruction, and its bytes pay for two.
  cases hout with
  | full is fresh straight hlen =>
      have hne : is ≠ [] := by
        intro hnil
        rw [hnil, List.length_nil] at hlen
        omega
      refine workload_le_of_lt ?_ (unknownCount_takeRun_lt fresh hne)
      simp only [Session.pending_enqueue, htake]
      omega
  | blocked is fresh straight hlen code message hobstacle =>
      exact Nat.add_le_add (Nat.le_of_eq (htake is))
        (Nat.mul_le_mul_left 2 (unknownCount_takeRun_le fresh))
  | data is fresh straight hlen hne hkind =>
      exact Nat.add_le_add (Nat.le_of_eq (htake is))
        (Nat.mul_le_mul_left 2 (unknownCount_takeRun_le fresh))
  | met is i fresh straight hlen hkind =>
      refine workload_le_of_lt ?_ (unknownCount_takeRun_lt fresh (by simp))
      simp only [Session.pending_enqueue, htake]
      omega
  | transferred is i t fresh straight ht hlen =>
      have hcount := countP_isQueued_emission (a := Run.stop start is) ht
      refine workload_le_of_lt ?_ ?_
      · simp only [Session.emit_eq_foldl, Session.pending_foldl_note, htake]
        omega
      · simp only [Session.emit_stores]
        exact unknownCount_takeRun_lt fresh (by simp)

/-- A slot that is taken queues two references, and its bytes become known. -/
theorem readSlot_workload_le (e : Explorer) (r : Reference) (s : Session) :
    e.workload (e.readSlot r s) ≤ e.workload s := by
  have hread := readSlot_slotRead e s r
  generalize e.readSlot r s = s' at hread
  cases hread with
  | refused => exact Nat.le_refl _
  | accepted word hword hlimit hfree hin hlanding hself =>
      rcases Image.bytes?_eq_some hword with ⟨h0, hend, hcontains⟩
      have hput := fun a => ByteMap.get_put s.bytes r.slot a .data 2 h0 (by omega)
      -- The slot had unknown bytes, and two references are queued for it.
      have hfirst : r.slot.Spans 2 r.slot := Address.spans_self (by decide)
      refine workload_le_of_lt ?_ (Image.unknownCount_lt ?_ (hcontains _ hfirst)
        (hfree _ hfirst) ?_)
      · simp only [Session.takeSlot, Session.pending_enqueue]
        exact Nat.le_refl _
      · intro a ha
        simp only [Session.takeSlot, Session.enqueue, hput] at ha
        by_cases hspan : r.slot.Spans 2 a
        · exact hfree a hspan
        · rw [if_neg hspan] at ha
          exact ha
      · simp only [Session.takeSlot, Session.enqueue, hput, if_pos hfirst, ne_eq, reduceCtorEq,
          not_false_eq_true]

/-- A reference that is still pending is part of the workload. -/
theorem workload_pos {r : Reference} {queue : ReferenceQueue}
    (hpop : s.queue.pop? = some (r, queue)) : 0 < e.workload s := by
  simp only [workload, Session.pending, ReferenceQueue.size, ReferenceQueue.pop?_eq_some hpop,
    List.length_cons]
  omega

/-- Following a reference lowers the workload. -/
theorem process_workload_lt (hlimit : 1 ≤ e.limits.blockInstructions) {r : Reference}
    {queue : ReferenceQueue} (hpop : s.queue.pop? = some (r, queue))
    (hprocess : e.process r { s with queue := queue } = .ok s') : e.workload s' < e.workload s := by
  -- The reference itself is taken away, and what it brings about costs no more than it saves.
  have hpopped : e.workload { s with queue := queue } + 1 = e.workload s := by
    have hpending := ReferenceQueue.pop?_eq_some hpop
    simp only [workload, Session.pending, ReferenceQueue.size, hpending, List.length_cons]
    omega
  have hle : e.workload s' ≤ e.workload { s with queue := queue } := by
    rcases process_cases e r { s with queue := queue }
      with hcase | ⟨t, hcase, hqueue, hbytes⟩ | ⟨-, hcase⟩
    · rw [hcase] at hprocess
      cases hprocess
      exact readSlot_workload_le e r _
    · rw [hcase] at hprocess
      cases hprocess
      exact Nat.le_of_eq (workload_congr hqueue hbytes)
    · rw [hcase] at hprocess
      rcases except_map_eq_ok.mp hprocess with ⟨t, hdecode, rfl⟩
      have hrecord : e.workload (t.record r) = e.workload t :=
        workload_congr (by simp only [Session.record_stores])
          (by simp only [Session.record_stores])
      rw [hrecord]
      exact decodeBlock_workload_le hlimit hdecode
  omega

/-- A bound that covers the workload is not what ends the draining of a queue. -/
theorem drain_pending (hlimit : 1 ≤ e.limits.blockInstructions) (cancelled : Nat → Bool)
    (bound asked : Nat) (hbound : e.workload s ≤ bound)
    (hok : e.drain cancelled bound asked s = .ok (s', .ok ())) : s'.queue.pending = [] := by
  -- The workload falls with every reference, so the bound covers what is left.
  induction bound generalizing asked s with
  | zero =>
      have hnone : s.queue.pending.length = 0 := by
        unfold workload Session.pending ReferenceQueue.size at hbound
        omega
      cases hok
      exact List.eq_nil_of_length_eq_zero hnone
  | succ bound ih =>
      unfold drain at hok
      cases hpop : s.queue.pop? with
      | none =>
          simp only [hpop] at hok
          cases hok
          exact ReferenceQueue.pop?_eq_none hpop
      | some next =>
          rcases next with ⟨r, queue⟩
          simp only [hpop] at hok
          by_cases hc : cancelled asked
          · rw [if_pos hc] at hok
            cases hok
          · rw [if_neg hc] at hok
            cases hprocess : e.process r { s with queue := queue } with
            | error cause =>
                rw [hprocess] at hok
                cases hok
            | ok t =>
                rw [hprocess] at hok
                have hlt := process_workload_lt hlimit hpop hprocess
                exact ih (asked + 1) (by omega) hok

/-- The bound that a run recurses on covers the workload. -/
theorem workload_le_bound (e : Explorer) (s : Session) : e.workload s ≤ e.bound s := by
  have hcount := e.image.unknownCount_le_byteCount s.bytes
  unfold workload bound
  omega

/-- A run that is not cancelled leaves nothing pending. -/
theorem run_pending (hlimit : 1 ≤ e.limits.blockInstructions) {cancelled : Nat → Bool}
    (hok : e.run cancelled s = .ok (s', .ok ())) : s'.queue.pending = [] :=
  drain_pending hlimit cancelled _ 0 (e.workload_le_bound s) hok

end Explorer

end Disasm86
