import Disasm86.Proofs.Distances
import Disasm86.Proofs.Explored
import Disasm86.Proofs.Tiling
import Disasm86.Proofs.Workload
import Mathlib.Data.Set.Card

/-!
# Exploring Comes to an End

The workload says more than that a run ends: it counts the references that can still be
followed. `Explorer.follow` takes the steps of a run one by one, without the bound that the
run recurses on, and each of them lowers the workload. So no session can be followed further
than its workload, and a run goes exactly as far as there is something to follow.

There are two ends. Nothing may be pending any more, and then the run is through. Or the next
reference cannot be followed, because decoding at its target comes to an instruction that
overlaps something known and has no text to be reported by. The run then breaks off, with that
reference and perhaps others still pending. Overlaps are common and are meant to be reported and
passed over; what is needed for a run to break off is an instruction with one of the few
distances of `Instruction.NamesFarthest` in addition.

The session is arbitrary, as it is in the workload. What it holds need not be the outcome
of an exploration, and a queue, a byte map or a block store that was edited by hand is
drained like any other.

The workload counts unknown bytes along a list of addresses. For the count to mean what it
says, the list must hold each byte of the image once and nothing else; `mem_addresses_iff`
and `nodup_addresses` are about that, and the result speaks of the set of unknown bytes.

## Main definitions

* `Image.unknown`: The bytes of an image that nothing is known of.
* `Explorer.follow`: Following so many references, without a bound.
* `Explorer.Drains`: A run ends with nothing pending.
* `Explorer.BreaksOff`: A run ends at an instruction that cannot be named.

## Theorems

* `Image.unknownCount_eq_ncard`: The workload counts each unknown byte once.
* `Explorer.follow_workload_le`: Each reference that is followed lowers the workload.
* `Explorer.exists_follow_end`: Following a session comes to one of the two ends.
* `Explorer.drain_follow`: Draining takes the same steps.
* `Explorer.run_of_follow`, `Explorer.run_of_follow_error`: What a run comes to at its end.
* `Explorer.run_drains_iff`: A run ends with an empty queue unless it breaks off, and why it
  does.
-/

namespace Disasm86

namespace Image

/-- The bytes of an image that nothing is known of. -/
def unknown (image : Image) (m : ByteMap) : Set Address :=
  {a | image.contains a ∧ (m.get a).kind = .unknown}

/-- No address of an image is listed twice. -/
theorem nodup_addresses (image : Image) : image.addresses.Nodup := by
  unfold addresses List.Nodup
  rw [List.pairwise_flatMap]
  constructor
  · -- In one segment the offsets differ, because they are too small to wrap.
    intro x _
    unfold Segment.addresses
    by_cases hnumber : x.2 < 0x80000000
    · rw [if_pos hnumber, List.pairwise_map]
      refine List.nodup_range.imp_of_mem fun {j k} hj hk hne heq => hne ?_
      have hfits := x.1.fits
      simp only [segmentSize] at hfits
      rw [List.mem_range] at hj hk
      -- Equal addresses have equal offsets, and those are the numbers themselves.
      have hoffset := congrArg (fun a => a.offset.toInt) heq
      simp only [Segment.start] at hoffset
      rw [Int32.toInt_ofNat_of_lt (by omega), Int32.toInt_ofNat_of_lt (by omega)] at hoffset
      omega
    · rw [if_neg hnumber]
      exact List.Pairwise.nil
  · -- Of two segments the numbers differ, because they ascend.
    have hnumbers : (image.segments.toList.zipIdx.map (·.2)).Pairwise (· < ·) := by
      rw [List.zipIdx_map_snd]
      exact List.pairwise_lt_range'
    refine (List.pairwise_map.mp hnumbers).imp fun {x y} hlt a ha b hb heq => ?_
    have hx := (Segment.mem_addresses_iff.mp ha).1
    have hy := (Segment.mem_addresses_iff.mp hb).1
    rw [heq] at hx
    omega

/-- Counting the unknown bytes gives the size of their set, since no address is counted twice. -/
theorem unknownCount_eq_ncard (image : Image) (m : ByteMap) :
    image.unknownCount m = (image.unknown m).ncard := by
  have hset : image.unknown m
      = (image.addresses.filter fun a => (m.get a).isUnknown).toFinset := by
    ext a
    simp only [unknown, Set.mem_ofPred_eq, List.coe_toFinset, List.mem_filter, mem_addresses_iff,
      ByteMark.isUnknown, decide_eq_true_eq]
  rw [hset, Set.ncard_coe_finset, List.toFinset_card_of_nodup (image.nodup_addresses.filter _),
    unknownCount, List.countP_eq_length_filter]

end Image

/-- An instruction of an image that has no text is one of those with the greatest distances. -/
theorem Unnamable.namesFarthest {e : Explorer} {s : Session} {a : Address} {i : Instruction}
    {cause : Overflow} (h : Unnamable e s a i cause) : i.NamesFarthest := by
  rcases Image.instructionAt?_eq_some_iff.mp h.decoded with ⟨code, -, hdecode⟩
  by_contra hnot
  rcases (decode_text_isOk_iff hdecode).mpr hnot with ⟨text, htext⟩
  rw [h.text_eq] at htext
  cases htext

namespace Explorer

/-- Follows `n` references one after the other, if there are that many that can be followed. Runs
    are compared with it, because it has no bound and asks nobody whether to go on. -/
def follow (e : Explorer) : Nat → Session → Option Session
  | 0, s => some s
  | n + 1, s =>
    match e.step? s with
    | some (.ok s') => e.follow n s'
    | _ => none

variable {e : Explorer} {s s' t : Session} {r : Reference} {queue : ReferenceQueue}
  {cancelled : Nat → Bool} {cause : Overflow}

/-- A step takes the next reference out of the queue, and the rest is up to the reference. -/
theorem step?_of_pop? (hpop : s.queue.pop? = some (r, queue)) :
    e.step? s = some (e.process r { s with queue := queue }) := by
  rw [step?, hpop]

/-- There is no step if nothing is pending. -/
theorem step?_eq_none (h : s.queue.pending = []) : e.step? s = none := by
  unfold step?
  cases hpop : s.queue.pop? with
  | none => rfl
  | some next =>
      rw [ReferenceQueue.pop?_eq_some hpop] at h
      cases h

/-- A step follows the reference that is next. -/
theorem step?_eq_some {outcome : Except Overflow Session} (h : e.step? s = some outcome) :
    ∃ r queue, s.queue.pop? = some (r, queue)
      ∧ e.process r { s with queue := queue } = outcome := by
  unfold step? at h
  cases hpop : s.queue.pop? with
  | none => simp only [hpop, reduceCtorEq] at h
  | some next =>
      rcases next with ⟨r, queue⟩
      simp only [hpop, Option.some.injEq] at h
      exact ⟨r, queue, rfl, h⟩

/-- The first step of several. -/
theorem follow_succ {n : Nat} (h : e.follow (n + 1) s = some t) :
    ∃ s', e.step? s = some (.ok s') ∧ e.follow n s' = some t := by
  unfold follow at h
  split at h
  · rename_i s' hstep
    exact ⟨s', hstep, h⟩
  · cases h

theorem follow_of_step? (hstep : e.step? s = some (.ok s')) (n : Nat) :
    e.follow (n + 1) s = e.follow n s' := by
  rw [follow, hstep]

/-- The step lemma: every step that can be taken makes the workload less. -/
theorem step?_workload_lt (hlimit : 1 ≤ e.limits.blockInstructions)
    (h : e.step? s = some (.ok s')) : e.workload s' < e.workload s := by
  rcases step?_eq_some h with ⟨r, queue, hpop, hprocess⟩
  exact process_workload_lt hlimit hpop hprocess

/-- The run lemma: so many steps have made it less by as much at least. -/
theorem follow_workload_le (hlimit : 1 ≤ e.limits.blockInstructions) {n : Nat}
    (h : e.follow n s = some s') : n + e.workload s' ≤ e.workload s := by
  induction n generalizing s with
  | zero =>
      cases h
      omega
  | succ n ih =>
      rcases follow_succ h with ⟨next, hstep, hrest⟩
      have hle := ih hrest
      have hlt := step?_workload_lt hlimit hstep
      omega

-- The induction is on the workload, because following is not bounded by anything else.
/-- Following a session comes to a session with nothing pending, or to one whose next reference
    cannot be followed. -/
theorem exists_follow_end (hlimit : 1 ≤ e.limits.blockInstructions) (s : Session) :
    ∃ n t, e.follow n s = some t
      ∧ (t.queue.pending = [] ∨ ∃ cause, e.step? t = some (.error cause)) := by
  induction hwork : e.workload s using Nat.strong_induction_on generalizing s with
  | _ work ih =>
      cases hpop : s.queue.pop? with
      | none => exact ⟨0, s, rfl, Or.inl (ReferenceQueue.pop?_eq_none hpop)⟩
      | some next =>
          rcases next with ⟨r, queue⟩
          have hstep := step?_of_pop? (e := e) hpop
          -- What cannot be followed is an end as well, and otherwise there is less to do behind the
          -- step.
          cases hprocess : e.process r { s with queue := queue } with
          | error cause =>
              rw [hprocess] at hstep
              exact ⟨0, s, rfl, Or.inr ⟨cause, hstep⟩⟩
          | ok s' =>
              rw [hprocess] at hstep
              have hlt := step?_workload_lt hlimit hstep
              rcases ih _ (by omega) s' rfl with ⟨n, t, hfollow, hend⟩
              exact ⟨n + 1, t, by rw [follow_of_step? hstep]; exact hfollow, hend⟩

/-- Draining takes the steps of following, as long as nobody cancels it. -/
theorem drain_follow {k : Nat} (hfollow : e.follow k s = some t) (asked : Nat)
    (hasked : ∀ j < k, ¬ cancelled (asked + j)) (bound : Nat) :
    e.drain cancelled (k + bound) asked s = e.drain cancelled bound (asked + k) t := by
  induction k generalizing s asked with
  | zero =>
      cases hfollow
      rw [Nat.zero_add, Nat.add_zero]
  | succ k ih =>
      rcases follow_succ hfollow with ⟨s', hstep, hrest⟩
      rcases step?_eq_some hstep with ⟨r, queue, hpop, hprocess⟩
      have hfirst : ¬ cancelled asked := hasked 0 (Nat.succ_pos k)
      rw [show k + 1 + bound = k + bound + 1 by omega, drain_succ hpop hfirst, hprocess]
      rw [show asked + (k + 1) = asked + 1 + k by omega]
      refine ih hrest (asked + 1) fun j hj => ?_
      rw [show asked + 1 + j = asked + (j + 1) by omega]
      exact hasked (j + 1) (by omega)

/-- A run that is not cancelled before has come to each session on its way, and the bound leaves
    room for the workload that is left there. That is why the bound never decides where a run
    ends. -/
theorem run_eq_drain (hlimit : 1 ≤ e.limits.blockInstructions) {k : Nat}
    (hfollow : e.follow k s = some t) (hasked : ∀ j < k, ¬ cancelled j) :
    ∃ rest, e.workload t ≤ rest ∧ e.run cancelled s = e.drain cancelled rest k t := by
  have hwork := follow_workload_le hlimit hfollow
  have hbound := e.workload_le_bound s
  refine ⟨e.bound s - k, by omega, ?_⟩
  have hline := drain_follow hfollow 0 (fun j hj => by rw [Nat.zero_add]; exact hasked j hj)
    (e.bound s - k)
  rw [show k + (e.bound s - k) = e.bound s by omega, Nat.zero_add] at hline
  exact hline

/-- A run that comes to a session with nothing pending has come to its end. -/
theorem run_of_follow (hlimit : 1 ≤ e.limits.blockInstructions) {k : Nat}
    (hfollow : e.follow k s = some t) (hasked : ∀ j < k, ¬ cancelled j)
    (hempty : t.queue.pending = []) : e.run cancelled s = .ok (t, .ok ()) := by
  rcases run_eq_drain hlimit hfollow hasked with ⟨rest, -, hrun⟩
  rw [hrun]
  exact drain_of_pending_eq_nil hempty

/-- A run breaks off where the next reference cannot be followed. -/
theorem run_of_follow_error (hlimit : 1 ≤ e.limits.blockInstructions) {k : Nat}
    (hfollow : e.follow k s = some t) (hasked : ∀ j ≤ k, ¬ cancelled j)
    (hstep : e.step? t = some (.error cause)) : e.run cancelled s = .error cause := by
  rcases run_eq_drain hlimit hfollow fun j hj => hasked j (Nat.le_of_lt hj) with ⟨rest, hleft, hrun⟩
  rcases step?_eq_some hstep with ⟨r, queue, hpop, hprocess⟩
  -- What cannot be followed is still pending, so the bound is not used up.
  have hpos := workload_pos (e := e) hpop
  cases rest with
  | zero => omega
  | succ rest =>
      rw [hrun, drain_succ hpop (hasked k (Nat.le_refl k)), hprocess]
      rfl

/-- A run that nobody cancels follows the session to its end and leaves nothing pending. -/
def Drains (e : Explorer) (s : Session) : Prop :=
  ∃ n t, e.follow n s = some t ∧ e.step? t = none ∧ t.queue.pending = []
    ∧ e.run (fun _ => false) s = .ok (t, .ok ())

/-- A run that nobody cancels comes to a reference that it cannot follow. Straight-line decoding
    from its target reaches an instruction that overlaps something known, and the distance of
    this instruction is one of those that cannot be counted from its start. -/
def BreaksOff (e : Explorer) (s : Session) (cause : Overflow) : Prop :=
  ∃ n t r queue is i, e.follow n s = some t ∧ t.queue.pop? = some (r, queue)
    ∧ e.step? t = some (.error cause) ∧ Fresh e { t with queue := queue } r.target is
    ∧ Unnamable e (({ t with queue := queue } : Session).takeRun r.target is)
      (Run.stop r.target is) i cause
    ∧ i.NamesFarthest

/-- A session whose next reference cannot be followed is where a run breaks off. -/
theorem breaksOff_of_follow {n : Nat} (hfollow : e.follow n s = some t)
    (hstep : e.step? t = some (.error cause)) : e.BreaksOff s cause := by
  rcases step?_eq_some hstep with ⟨r, queue, hpop, hprocess⟩
  rcases process_eq_error hprocess with ⟨-, is, i, hfresh, hunnamable⟩
  exact ⟨n, t, r, queue, is, i, hfollow, hpop, hstep, hfresh, hunnamable,
    hunnamable.namesFarthest⟩

/-- Every run does one of the two. -/
theorem drains_or_breaksOff (hlimit : 1 ≤ e.limits.blockInstructions) (s : Session) :
    e.Drains s ∨ ∃ cause, e.BreaksOff s cause ∧ e.run (fun _ => false) s = .error cause := by
  rcases exists_follow_end hlimit s with ⟨n, t, hfollow, hempty | ⟨cause, hstep⟩⟩
  · refine Or.inl ⟨n, t, hfollow, step?_eq_none hempty, hempty, ?_⟩
    exact run_of_follow hlimit hfollow (fun _ _ => Bool.false_ne_true) hempty
  · exact Or.inr ⟨cause, breaksOff_of_follow hfollow hstep,
      run_of_follow_error hlimit hfollow (fun _ _ => Bool.false_ne_true) hstep⟩

/-- From any session, nothing can be followed further than the pending references and twice
    the unknown bytes allow. A run goes to the end and leaves an empty queue, unless it comes to
    an instruction that it has to name and cannot; then nothing comes of it. Without instructions
    of that kind in the image no run breaks off. -/
theorem run_drains_iff (e : Explorer) (s : Session) (hlimit : 1 ≤ e.limits.blockInstructions) :
    (∀ n s', e.follow n s = some s' → n ≤ s.pending + 2 * (e.image.unknown s.bytes).ncard)
      ∧ (e.Drains s ↔ ¬ ∃ cause, e.BreaksOff s cause)
      ∧ (∀ cause, e.run (fun _ => false) s = .error cause ↔ e.BreaksOff s cause)
      ∧ ((∀ a i, e.image.instructionAt? e.context a = some i → ¬ i.NamesFarthest) →
        e.Drains s) := by
  have herror : ∀ cause, e.BreaksOff s cause → e.run (fun _ => false) s = .error cause := by
    rintro cause ⟨n, t, r, queue, is, i, hfollow, -, hstep, -⟩
    exact run_of_follow_error hlimit hfollow (fun _ _ => Bool.false_ne_true) hstep
  have hdrains : (¬ ∃ cause, e.BreaksOff s cause) → e.Drains s := by
    intro hnone
    refine (drains_or_breaksOff hlimit s).resolve_right ?_
    rintro ⟨cause, hbreaks, -⟩
    exact hnone ⟨cause, hbreaks⟩
  refine ⟨?_, ⟨?_, hdrains⟩, fun cause => ⟨?_, herror cause⟩, ?_⟩
  -- The workload counts what is pending and twice what is unknown, and every step costs one.
  · intro n s' h
    have hle := follow_workload_le hlimit h
    rw [← Image.unknownCount_eq_ncard]
    unfold workload at hle
    omega
  -- A run has one outcome, so it cannot do both.
  · rintro ⟨n, t, -, -, -, hrun⟩ ⟨cause, hbreaks⟩
    rw [herror cause hbreaks] at hrun
    cases hrun
  · intro hrun
    rcases drains_or_breaksOff hlimit s with ⟨n, t, -, -, -, hrun'⟩ | ⟨cause', hbreaks, hrun'⟩
    · rw [hrun] at hrun'
      cases hrun'
    · rw [hrun] at hrun'
      cases hrun'
      exact hbreaks
  · intro hnone
    refine hdrains ?_
    rintro ⟨cause, n, t, r, queue, is, i, -, -, -, -, hunnamable, hfarthest⟩
    exact hnone _ i hunnamable.decoded hfarthest

/-- A session edited by hand: a block without instructions, a byte taken for data, a slot
    that nothing jumps through, and the same entry queued twice. -/
def edited : Session :=
  let entry : Reference := ⟨.entry, .nowhere, ⟨0, 0⟩, .nowhere⟩
  let marked : Session :=
    { Session.fresh with
      blocks := BlockStore.empty.push ⟨⟨0, 1⟩, 2, .halt⟩
      bytes := ByteMap.put {} ⟨0, 3⟩ .data 1
      tableSlots := (∅ : Std.TreeMap Address Nat).insert ⟨0, 9⟩ 7 }
  ((marked.enqueue (.probe ⟨0, 9⟩ ⟨0, 0⟩)).enqueue entry).enqueue entry

/-- Nothing in the image of a jump back cannot be named, so the session is drained. -/
theorem run_drains_edited :
    edited.pending = 3 ∧ 1 ≤ (Explorer.mk jumpBack {} {}).limits.blockInstructions
      ∧ Drains ⟨jumpBack, {}, {}⟩ edited
      ∧ ∀ n s', Explorer.follow ⟨jumpBack, {}, {}⟩ n edited = some s' →
        n ≤ edited.pending + 2 * (jumpBack.unknown edited.bytes).ncard := by
  have hlimit : 1 ≤ (Explorer.mk jumpBack {} {}).limits.blockInstructions := by decide
  rcases run_drains_iff ⟨jumpBack, {}, {}⟩ edited hlimit with ⟨hbound, hdrains, hfails, -⟩
  have hok : (Explorer.run ⟨jumpBack, {}, {}⟩ (fun _ => false) edited).isOk := by decide +kernel
  refine ⟨by decide, hlimit, hdrains.mpr ?_, hbound⟩
  rintro ⟨cause, hbreaks⟩
  rw [(hfails cause).mpr hbreaks] at hok
  cases hok

/-- A jump by one of the greatest distances, the last byte of which is a branch as well. -/
def overlappedJump : Image :=
  Image.ofBytes #[0x66, 0xE9, 0xFF, 0xFF, 0xFF, 0x7F, 0x00, 0xC3] 0

/-- The branch is entered first and the jump second. The jump overlaps the branch, and that
    cannot be reported. What the branch leads to is still pending then. -/
theorem run_breaksOff_overlappedJump :
    let e : Explorer := ⟨overlappedJump, {}, {}⟩
    let s := (Session.fresh.enqueue ⟨.entry, .nowhere, ⟨0, 5⟩, .nowhere⟩).enqueue
      ⟨.entry, .nowhere, ⟨0, 0⟩, .nowhere⟩
    e.run (fun _ => false) s = .error ⟨0x7FFFFFFF, 6⟩ ∧ ¬ e.Drains s
      ∧ ∃ t, e.follow 1 s = some t ∧ t.pending = 3 := by
  intro e s
  have hpending : (e.follow 1 s).any (fun t => t.pending = 3) := by decide +kernel
  -- Sessions cannot be compared, so only the cause is computed.
  have hcause : (match e.run (fun _ => false) s with
      | .ok _ => none
      | .error cause => some cause) = some (⟨0x7FFFFFFF, 6⟩ : Overflow) := by
    decide +kernel
  have hrun : e.run (fun _ => false) s = .error ⟨0x7FFFFFFF, 6⟩ := by
    cases h : e.run (fun _ => false) s with
    | ok left =>
        rw [h] at hcause
        cases hcause
    | error cause =>
        rw [h] at hcause
        cases hcause
        rfl
  refine ⟨hrun, ?_, ?_⟩
  · rintro ⟨n, t, -, -, -, hok⟩
    rw [hrun] at hok
    cases hok
  · rcases (Option.any_eq_true _ _).mp hpending with ⟨t, ht, hthree⟩
    exact ⟨t, ht, of_decide_eq_true hthree⟩

end Explorer

end Disasm86
