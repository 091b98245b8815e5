import Disasm86.Proofs.Accounting
import Disasm86.Proofs.BranchForms
import Disasm86.Proofs.Contents
import Disasm86.Proofs.Resolution

/-!
# What Is Reported of Branches

Two things are reported of a branch whose target is not followed. Either the target is computed
when the program runs, or it is named and lies outside the offsets of the segment. Each is
reported once, and of no other instruction.

The two are not reported at the same time. A target outside the segment is reported when the
block of the branch is decoded, and a computed target when the reference of the branch has its
turn in the queue. So the queue is counted in: a pending reference without a target stands for
the message that it will become. Counted that way, what a session has found about its branches
is what its indexed instructions owe, at every moment.

What an instruction owes is first said as exploring decides it, by looking for a target and then
at its offset. `decode_distance` turns that into a statement about flow and operands. A jump
through a table owes a message although its slots are followed, because the references to the
slots are counted apart from the jump itself.

## Main definitions

* `Instruction.branch?`: What is to be reported of an instruction.
* `Session.branchFindings`: What has been reported of branches, or will be.
* `Session.branchesOwed`: How often something is to be reported.
* `Instruction.isComputed`, `Instruction.wraps`: The two kinds of targets that are not followed.
* `Diagnostics.countAt`: How often a code is reported at an address.
* `Analysis.BranchesReported`: The diagnostics of an analysis tell of its branches.

## Theorems

* `branchFindings_note`, `branchFindings_foldl_note`: Notes add what they are about.
* `filterMap_branch?_emission`: An emission holds what is to be reported of its instruction.
* `branchesOwed_takeRun`: A new run owes what its last instruction owes.
* `Visited.branches`: A visit finds what its new instructions owe.
* `Explored.branches`: The findings of an explored session are those that it owes.
* `branch?_eq`: What is to be reported of an instruction, by its flow and its operands.
* `analyzeImage_branches`: The branches of a finished analysis are reported exactly.
-/

namespace Disasm86

/-- What a diagnostic says of a branch, if it is about one. -/
def Diagnostic.branch? (d : Diagnostic) : Option (Address × DiagnosticCode) :=
  if d.code = .dynamicTarget ∨ d.code = .addressWrapped then some (d.location, d.code) else none

/-- What will be reported when a reference is followed that has no target. -/
def Reference.branch? (r : Reference) : Option (Address × DiagnosticCode) :=
  if r.isProbe || r.target.isSomewhere then none else some (r.source, .dynamicTarget)

/-- What a note says of a branch. -/
def Note.branch? : Note → Option (Address × DiagnosticCode)
  | .queued r => r.branch?
  | .recorded _ => none
  | .reported location code message => Diagnostic.branch? ⟨location, code, message⟩

/-- What is to be reported of the instruction at `a`. -/
def Instruction.branch? (i : Instruction) (a : Address) : Option (Address × DiagnosticCode) :=
  if i.transfer?.any Transfer.namesTarget then
    match i.branchTarget? a with
    | none => some (a, .dynamicTarget)
    | some target => if isReachableOffset target.offset then none else some (a, .addressWrapped)
  else none

theorem filterMap_cons_eq {α β : Type} (f : α → Option β) (x : α) (xs : List α) :
    (x :: xs).filterMap f = (f x).toList ++ xs.filterMap f := by
  cases h : f x <;> simp [h]

namespace Session

/-- What has been reported of branches, and what will be because of pending references. A branch
    without a target is reported only when its reference is followed, so the two have to be counted
    together for something to be kept by every step. -/
def branchFindings (s : Session) : List (Address × DiagnosticCode) :=
  s.diagnostics.toList.filterMap Diagnostic.branch? ++ s.queue.pending.filterMap Reference.branch?

/-- How often something is to be reported of a branch, by the instruction that is there. As with
    references, what the code demands is computed from the index and then compared with what has
    been found. -/
def branchesOwed (s : Session) (x : Address × DiagnosticCode) : Nat :=
  match s.code.get? x.1 with
  | some i => (i.branch? x.1).toList.count x
  | none => 0

variable (s : Session) {s' : Session}

theorem branchFindings_congr (hdiagnostics : s'.diagnostics = s.diagnostics)
    (hqueue : s'.queue = s.queue) : s'.branchFindings = s.branchFindings := by
  unfold branchFindings
  rw [hdiagnostics, hqueue]

theorem branchesOwed_record (r : Reference) (x : Address × DiagnosticCode) :
    (s.record r).branchesOwed x = s.branchesOwed x := by
  simp only [branchesOwed, record_stores]

theorem branchFindings_record (r : Reference) : (s.record r).branchFindings = s.branchFindings := by
  refine s.branchFindings_congr ?_ ?_ <;> simp only [record_stores]

/-- A note adds what it is about. -/
theorem branchFindings_note (n : Note) :
    (s.note n).branchFindings.Perm (n.branch?.toList ++ s.branchFindings) := by
  cases n with
  | queued r =>
      -- A queued reference counts as soon as it is pending.
      have hpush := (s.queue.pending_push_perm r).filterMap Reference.branch?
      rw [filterMap_cons_eq] at hpush
      exact (hpush.append_left _).trans (List.perm_append_comm_assoc _ _ _)
  | recorded r =>
      rw [note, branchFindings_record]
      exact List.Perm.refl _
  | reported location code message =>
      have hlast : (s.note (.reported location code message)).branchFindings
          = s.diagnostics.toList.filterMap Diagnostic.branch?
            ++ (Diagnostic.branch? ⟨location, code, message⟩).toList
            ++ s.queue.pending.filterMap Reference.branch? := by
        unfold branchFindings note report
        simp only [Diagnostics.toList_report, List.filterMap_append, filterMap_cons_eq,
          List.filterMap_nil, List.append_nil]
      rw [hlast, List.append_assoc]
      exact List.perm_append_comm_assoc _ _ _

/-- Notes add what they are about, one after the other. The order does not matter for counting. -/
theorem branchFindings_foldl_note (notes : List Note) :
    (notes.foldl note s).branchFindings.Perm
      (notes.filterMap Note.branch? ++ s.branchFindings) := by
  induction notes generalizing s with
  | nil => exact List.Perm.refl _
  | cons n notes ih =>
      rw [filterMap_cons_eq, List.append_assoc]
      exact ((ih (s.note n)).trans ((s.branchFindings_note n).append_left _)).trans
        (List.perm_append_comm_assoc _ _ _)

/-- A reference with a target is no finding, and neither is a slot that is still to be read. -/
theorem branchFindings_enqueue {r : Reference} (h : r.isProbe || r.target.isSomewhere) :
    (s.enqueue r).branchFindings.Perm s.branchFindings := by
  have hnote := s.branchFindings_note (.queued r)
  rw [Note.branch?, Reference.branch?, if_pos h] at hnote
  exact hnote

/-- Reports about anything else are no findings. -/
theorem branchFindings_report {code : DiagnosticCode} (location : Address) (message : String)
    (h : ¬ (code = .dynamicTarget ∨ code = .addressWrapped)) :
    (s.report location code message).branchFindings.Perm s.branchFindings := by
  have hnote := s.branchFindings_note (.reported location code message)
  rw [Note.branch?, Diagnostic.branch?, if_neg h] at hnote
  exact hnote

/-- Closing a block reports nothing about branches, even if the block is broken. -/
theorem branchFindings_close (start : Address) (is : List Instruction) (kind : BlockKind) :
    (s.close start is kind).branchFindings.Perm s.branchFindings := by
  have hblocks : (s.close start is kind).branchFindings
      = (if kind = .broken then s.report start .brokenBasicBlock
          ("Block ends abnormally at " ++ (Run.stop start is).text) else s).branchFindings := rfl
  rw [hblocks]
  by_cases hk : kind = .broken
  · rw [if_pos hk]
    exact s.branchFindings_report _ _ (by decide)
  · rw [if_neg hk]

end Session

section Emission

variable {a : Address} {i : Instruction} {t : Transfer}

/-- The only note about a branch is the one about its target. -/
theorem filterMap_branch?_emission (ht : i.transfer? = some t) (hnext : (i.next a).isSomewhere) :
    (emission a i t).filterMap Note.branch? = (i.branch? a).toList := by
  -- Neither the slots of a table nor the address behind the instruction is a missing target.
  have hprobe : (((jumpTableSlot? a i).map fun slot =>
      Note.queued (.probe a slot)).toList).filterMap Note.branch? = [] := by
    cases jumpTableSlot? a i with
    | none => rfl
    | some slot => rfl
  have hfall : (if t.fallsThrough then [Note.queued ⟨.fallThrough, a, i.next a, .nowhere⟩]
      else []).filterMap Note.branch? = [] := by
    by_cases hf : t.fallsThrough
    · simp [hf, Note.branch?, Reference.branch?, hnext]
    · simp [hf]
  unfold emission Instruction.branch?
  rw [List.filterMap_append, hfall, List.append_nil, ht, Option.any_some]
  by_cases hnames : t.namesTarget
  · rw [if_pos hnames, if_pos hnames, List.filterMap_append, hprobe, List.nil_append]
    unfold targetEmission
    cases i.branchTarget? a with
    | none => rfl
    | some target =>
        by_cases hreach : isReachableOffset target.offset
        · have hsome : target.isSomewhere :=
            Address.isSomewhere_of_nonneg (isReachableOffset_iff.mp hreach).1
          simp [hreach, Note.branch?, Reference.branch?, hsome]
        · simp [hreach, Note.branch?, Diagnostic.branch?]
  · rw [if_neg hnames, if_neg hnames]
    rfl

/-- An instruction that transfers no control owes nothing. -/
theorem branch?_eq_none (ht : i.transfer? = none) : i.branch? a = none := by
  simp [Instruction.branch?, ht]

theorem fst_of_branch? {x : Address × DiagnosticCode} (h : i.branch? a = some x) : x.1 = a := by
  unfold Instruction.branch? at h
  split at h
  · split at h
    · rw [← Option.some.inj h]
    · split at h
      · cases h
      · rw [← Option.some.inj h]
  · cases h

/-- An instruction owes something at its own address only. -/
theorem count_branch?_of_ne {x : Address × DiagnosticCode} (hne : x.1 ≠ a) :
    (i.branch? a).toList.count x = 0 :=
  List.count_eq_zero.mpr fun hmem => hne (fst_of_branch? (Option.mem_toList.mp hmem))

end Emission

section Steps

variable {e : Explorer} {s s' : Session} {r : Reference} {start : Address}
  {is : List Instruction} {i : Instruction} {kind : BlockKind}

/-- A new run owes what its last instruction owes, if the others are straight. -/
theorem branchesOwed_takeRun (h : Indexed e.image e.context s)
    (hrun : Fresh e s start (is ++ [i])) (hstraight : ∀ j ∈ is, j.transfer? = none)
    (hcode : s'.code = (s.takeRun start (is ++ [i])).code) (x : Address × DiagnosticCode) :
    s'.branchesOwed x
      = (i.branch? (Run.stop start is)).toList.count x + s.branchesOwed x := by
  have hindexed := h.takeRun hrun
  have htaken := Session.isRun_takeRun s hrun.run
  have hspanlast := Run.spans_last hrun.run
  -- At a byte of the run the run decides, and elsewhere the index is as before.
  unfold Session.branchesOwed
  rw [hcode]
  by_cases hspan : start.Spans (Run.size (is ++ [i])) x.1
  · -- Before, there was no instruction at a byte of the run.
    have hnone : s.code.get? x.1 = none := by
      have hunknown := hrun.unknown x.1 hspan
      refine h.get?_eq_none fun heq => ?_
      rw [heq] at hunknown
      cases hunknown
    rw [hnone]
    by_cases hlast : x.1 = Run.stop start is
    · have hget := (isRun_append.mp htaken).2.1
      simp only [hlast, hget, Nat.add_zero]
    · rw [count_branch?_of_ne hlast]
      cases hk : (s.takeRun start (is ++ [i])).code.get? x.1 with
      | none => rfl
      | some k =>
          -- An instruction of the run that is not the last one is one of the straight ones.
          have hmem := (hindexed.mem_entries_iff htaken).mpr ⟨hk, hspan⟩
          rw [Run.entries_append] at hmem
          rcases List.mem_append.mp hmem with hmem | hmem
          · have hin : k ∈ is := by
              rw [← Run.map_snd_entries start is]
              exact List.mem_map_of_mem hmem
            simp [branch?_eq_none (hstraight k hin)]
          · have heq := List.mem_singleton.mp hmem
            exact absurd (congrArg Prod.fst heq) hlast
  · have hne : x.1 ≠ Run.stop start is := by
      intro heq
      rw [heq] at hspan
      exact hspan hspanlast
    rw [count_branch?_of_ne hne, Nat.zero_add, Session.takeRun_get?_outside s hrun.run hspan]

/-- Before a block is closed, what its last instruction owes has been found. -/
theorem Ending.branches (hrun : Fresh e s start (is ++ [i])) (h : Ending s start is i kind s') :
    s'.branchFindings.Perm ((i.branch? (Run.stop start is)).toList ++ s.branchFindings) := by
  have hnext : (Run.stop start (is ++ [i])).isSomewhere := by
    have hstop := Run.toInt_stop hrun.run
    have hbounds := Run.bounds hrun.run (by simp)
    exact Address.isSomewhere_of_nonneg (by omega)
  have htake : (s.takeRun start (is ++ [i])).branchFindings = s.branchFindings := by
    rw [Session.takeRun_eq]
    rfl
  -- Taking the run over finds nothing yet, so all depends on how it ends.
  rw [← htake]
  cases h with
  | ranOn ht =>
      rw [branch?_eq_none ht]
      exact Session.branchFindings_enqueue _ (by simp [hnext])
  | brokeOff ht code message hreport =>
      rw [branch?_eq_none ht]
      refine Session.branchFindings_report _ _ _ ?_
      cases hreport <;> decide
  | transferred t ht =>
      rw [Run.stop_append] at hnext
      rw [Session.emit_eq_foldl, ← filterMap_branch?_emission ht hnext]
      exact Session.branchFindings_foldl_note _ _

/-- A visit finds out about branches what its new instructions owe. -/
theorem Visited.branches (h : Indexed e.image e.context s) (hv : Visited e s r s') :
    ∃ new, s'.branchFindings.Perm (new ++ s.branchFindings)
      ∧ ∀ x, s'.branchesOwed x = new.count x + s.branchesOwed x := by
  -- Without a new instruction there is nothing to find out.
  have hquiet : ∀ s' : Session, s'.code = s.code → s'.branchFindings.Perm s.branchFindings →
      ∃ new, s'.branchFindings.Perm (new ++ s.branchFindings)
        ∧ ∀ x, s'.branchesOwed x = new.count x + s.branchesOwed x := by
    intro s' hcode hfindings
    refine ⟨[], hfindings, fun x => ?_⟩
    unfold Session.branchesOwed
    rw [hcode, List.count_nil, Nat.zero_add]
  cases hv with
  | misdirected code what hwhy =>
      refine hquiet _ rfl (s.branchFindings_report _ _ ?_)
      cases hwhy <;> decide
  | known id hstart => exact hquiet _ rfl (List.Perm.refl _)
  | stuck code message hwhy hunknown =>
      refine hquiet _ rfl (s.branchFindings_report _ _ ?_)
      cases hwhy <;> decide
  | cut id whole j last i hget hin hj hne hi hnext hlast straight =>
      refine hquiet _ (by simp only [Session.record_stores]) ?_
      rw [Session.branchFindings_record]
      exact List.Perm.refl _
  | decoded is i kind s1 fresh straight hlen hending =>
      refine ⟨_, (s1.branchFindings_close _ _ _).trans (hending.branches fresh), fun x => ?_⟩
      refine branchesOwed_takeRun h fresh straight ?_ x
      simp only [Session.close_stores, hending.stores]

/-- Following a reference keeps the findings about branches what they should be. Before it is
    followed, the reference itself counts as one if it has no target. -/
theorem Followed.branches (h : LaidOut e.image e.context s) (hf : Followed e s r s')
    (hs : ∀ x, (r.branch?.toList ++ s.branchFindings).count x = s.branchesOwed x)
    (x : Address × DiagnosticCode) : s'.branchFindings.count x = s'.branchesOwed x := by
  cases hf with
  | slot hprobe s' hslot =>
      rw [Reference.branch?, hprobe, Bool.true_or] at hs
      cases hslot with
      | refused => exact hs x
      | accepted word hword hlimit hfree hin hlanding hself =>
          have hsome := Image.isSomewhere_of_contains hin
          have htaken : (s.takeSlot r.source r.slot _).branchFindings.Perm s.branchFindings :=
            (Session.branchFindings_enqueue _ rfl).trans
              (Session.branchFindings_enqueue _ (by rw [hsome, Bool.or_true]))
          exact (htaken.count_eq x).trans (hs x)
  | dynamic hprobe htarget =>
      -- The message takes the place of the reference.
      have hone : r.branch? = some (r.source, .dynamicTarget) := by
        simp [Reference.branch?, hprobe, htarget]
      rw [hone] at hs
      have hreport := s.branchFindings_note (.reported r.source .dynamicTarget
        (r.kind.name ++ " target is computed at run time"))
      rw [Session.branchFindings_record, Session.branchesOwed_record]
      exact (hreport.count_eq x).trans (hs x)
  | visited htarget s' hv =>
      -- A reference with a target is no finding itself, and what the visit finds it also owes.
      rw [Reference.branch?, htarget, Bool.or_true] at hs
      rcases hv.branches h.toIndexed with ⟨new, hperm, howed⟩
      have hbefore : s.branchFindings.count x = s.branchesOwed x := hs x
      rw [Session.branchFindings_record, Session.branchesOwed_record, howed, hperm.count_eq,
        List.count_append, hbefore]

/-- What an explored session has found about its branches is what its instructions owe. -/
theorem Explored.branches {image : Image} {context : DecodeContext}
    (h : Explored image context (fun limits => 1 ≤ limits.blockInstructions) s)
    (x : Address × DiagnosticCode) : s.branchFindings.count x = s.branchesOwed x := by
  refine (h.keeps_laidOut (P := fun s => ∀ x, s.branchFindings.count x = s.branchesOwed x)
    (fun _ hl => hl) ?_ ?_ ?_).2 x
  · intro x
    simp only [Session.branchesOwed, Session.get?_fresh]
    rfl
  · intro s entry kind hs hsome x
    rw [(s.branchFindings_enqueue (by simp [hsome])).count_eq x]
    exact hs x
  · -- What was pending first is followed now, and counts as a finding until that is done.
    intro s limits r queue s' hs _ hpop hlaid hf
    refine hf.branches hlaid fun x => ?_
    have howed : ({ s with queue := queue } : Session).branchesOwed x = s.branchesOwed x := rfl
    rw [howed, ← hs x]
    refine List.Perm.count_eq ?_ x
    unfold Session.branchFindings
    rw [ReferenceQueue.pop?_eq_some hpop, filterMap_cons_eq]
    exact List.perm_append_comm_assoc _ _ _

end Steps

namespace Instruction

/-- Whether the instruction is a jump or a call that does not name its target as a distance.
    Conditional jumps are not among them. -/
def isComputed (i : Instruction) : Bool :=
  (i.transfer? ∈ [some .nearJump, some .farJump, some .nearCall, some .farCall])
    && !i.operands.any Operand.isRelative

/-- Whether the instruction at `a` names a distance that leads out of the segment. -/
def wraps (i : Instruction) (a : Address) : Bool :=
  i.operands.any fun
    | .relative distance _ _ =>
      let target := a.offset.toInt + i.length + distance.toInt
      target < 0 || 0xFFFF < target
    | _ => false

end Instruction

section Operands

variable {image : Image} {context : DecodeContext} {a : Address} {i : Instruction}

/-- Only a distance names a target. -/
theorem branchTarget?_eq_none (h : ∀ x ∈ i.operands, x.isRelative = false) :
    i.branchTarget? a = none := by
  refine List.findSome?_eq_none_iff.mpr fun x hx => ?_
  have hx := h x hx
  cases x with
  | relative d size field => cases hx
  | _ => rfl

/-- Only a distance can lead out of the segment. -/
theorem wraps_eq_false (h : ∀ x ∈ i.operands, x.isRelative = false) : i.wraps a = false := by
  refine List.any_eq_false.mpr fun x hx => ?_
  have hx := h x hx
  cases x with
  | relative d size field => cases hx
  | _ => simp

theorem wraps_eq_false_of_isComputed (h : i.isComputed) : i.wraps a = false := by
  simp only [Instruction.isComputed, Bool.and_eq_true, Bool.not_eq_true'] at h
  exact wraps_eq_false fun x hx => Bool.eq_false_iff.mpr (List.any_eq_false.mp h.2 x hx)

/-- A target that 32 bits cannot hold lies outside the segment, and so does what remains of it
    in 32 bits. -/
theorem isReachableOffset_offsetBy (h : image.instructionAt? context a = some i) (d : Int32) :
    isReachableOffset ((i.next a).offsetBy d).offset ↔
      0 ≤ a.offset.toInt + i.length + d.toInt ∧ a.offset.toInt + i.length + d.toInt ≤ 0xFFFF := by
  have hnext := Image.toInt_next h
  rcases Image.instructionAt?_eq_some h with ⟨-, h0, hend, -⟩
  have hlow := d.le_toInt
  have hhigh := d.toInt_lt
  have hnonneg : 0 ≤ a.offset.toInt + i.length := by omega
  rw [isReachableOffset_iff]
  simp only [Address.offsetBy, Int32.toInt_add, hnext]
  generalize a.offset.toInt + (i.length : Int) = next at *
  by_cases hfits : next + d.toInt < 0x80000000
  · rw [Int.bmod_eq_of_le (by omega) (by omega)]
  · -- What remains is a large negative number.
    rw [← Int.sub_bmod_right, Int.bmod_eq_of_le (by omega) (by omega)]
    omega

/-- What is to be reported of an instruction of an image, by its flow and its operands. -/
theorem branch?_eq (h : image.instructionAt? context a = some i) :
    i.branch? a = if i.isComputed then some (a, .dynamicTarget)
      else if i.wraps a then some (a, .addressWrapped) else none := by
  rcases Image.instructionAt?_eq_some_iff.mp h with ⟨code, -, hdecode⟩
  unfold Instruction.branch?
  rcases decode_distance hdecode with ⟨t, d, size, field, ht, hnames, hoperands⟩ | ⟨hne, hnone⟩
  · -- With a distance the target is named, whether it can be reached or not.
    have htarget : i.branchTarget? a = some ((i.next a).offsetBy d) := by
      simp [Instruction.branchTarget?, hoperands]
    have hcomputed : i.isComputed = false := by
      simp [Instruction.isComputed, hoperands, Operand.isRelative]
    have hreach := isReachableOffset_offsetBy h d
    have hwraps : i.wraps a = true ↔ ¬ isReachableOffset ((i.next a).offsetBy d).offset := by
      rw [hreach]
      simp only [Instruction.wraps, hoperands, List.any_cons, List.any_nil, Bool.or_false,
        Bool.or_eq_true, decide_eq_true_eq]
      omega
    simp only [ht, Option.any_some, hnames, if_true, htarget, hcomputed, Bool.false_eq_true,
      if_false, hwraps, ite_not]
  · -- Without one the target is computed, if the instruction has a target at all.
    have hany : i.operands.any Operand.isRelative = false :=
      List.any_eq_false.mpr fun x hx => by rw [hnone x hx]; exact Bool.false_ne_true
    have hcomputed : i.isComputed = i.transfer?.any Transfer.namesTarget := by
      rw [Instruction.isComputed, hany, Bool.not_false, Bool.and_true]
      revert hne
      rcases i.transfer? with _ | t
      · decide
      · cases t <;> decide
    rw [branchTarget?_eq_none hnone, wraps_eq_false hnone, hcomputed]
    rfl

/-- What is owed at an address, by the instruction that is indexed there. -/
theorem Indexed.branchesOwed_eq {s : Session} (h : Indexed image context s) (a : Address) :
    (s.branchesOwed (a, .dynamicTarget)
        = if (s.code.get? a).any Instruction.isComputed then 1 else 0)
      ∧ s.branchesOwed (a, .addressWrapped)
        = if (s.code.get? a).any (·.wraps a) then 1 else 0 := by
  unfold Session.branchesOwed
  cases hi : s.code.get? a with
  | none => exact ⟨rfl, rfl⟩
  | some i =>
      simp only [Option.any_some, branch?_eq (h.decoded hi)]
      by_cases hcomputed : i.isComputed
      · simp [hcomputed, wraps_eq_false_of_isComputed hcomputed]
      · by_cases hwraps : i.wraps a
        · simp [hcomputed, hwraps]
        · simp [hcomputed, hwraps]

end Operands

/-- How often a code is reported at an address. -/
def Diagnostics.countAt (ds : Diagnostics) (code : DiagnosticCode) (a : Address) : Nat :=
  (ds.toList.filter fun d => d.code = code).countP fun d => d.location = a

/-- The diagnostics of an analysis tell of its branches: at each address they have a message if
    a jump or call there computes its target, and an error if a distance leads out of the
    segment, and otherwise neither. -/
structure Analysis.BranchesReported (x : Analysis) : Prop where
  computed : ∀ a, x.diagnostics.countAt .dynamicTarget a
    = if (x.code.get? a).any Instruction.isComputed then 1 else 0
  wrapped : ∀ a, x.diagnostics.countAt .addressWrapped a
    = if (x.code.get? a).any (·.wraps a) then 1 else 0
  /-- No message is about a conditional jump. -/
  unconditional : ∀ a i, x.code.get? a = some i → i.transfer? = some .conditionalJump →
    x.diagnostics.countAt .dynamicTarget a = 0
  /-- No instruction has both. -/
  apart : ∀ a, x.diagnostics.countAt .dynamicTarget a + x.diagnostics.countAt .addressWrapped a ≤ 1

section Analyses

variable {image : Image} {context : DecodeContext} {s : Session} {entries : List Address}
  {options : AnalysisOptions} {cancelled : Nat → Bool} {analysis : Analysis}

/-- When nothing is pending any more, all findings about branches have been reported. -/
theorem Explored.countAt_eq
    (h : Explored image context (fun limits => 1 ≤ limits.blockInstructions) s)
    (hpending : s.queue.pending = []) {code : DiagnosticCode}
    (hcode : code = .dynamicTarget ∨ code = .addressWrapped) (a : Address) :
    s.diagnostics.countAt code a = s.branchesOwed (a, code) := by
  rw [← h.branches, Session.branchFindings, hpending, List.filterMap_nil, List.append_nil,
    List.count_filterMap, Diagnostics.countAt, List.countP_filter]
  refine List.countP_congr fun d _ => ?_
  simp only [Bool.and_eq_true, decide_eq_true_eq, beq_iff_eq, Diagnostic.branch?]
  constructor
  · intro hd
    rw [hd.2, hd.1, if_pos hcode]
  · intro hd
    by_cases hbranch : d.code = .dynamicTarget ∨ d.code = .addressWrapped
    · rw [if_pos hbranch, Option.some.injEq, Prod.mk.injEq] at hd
      exact hd
    · rw [if_neg hbranch] at hd
      cases hd

/-- A finished analysis reports its branches exactly. Nothing is pending then, so what has been
    found has been reported; and neither building the graph nor detecting procedures adds anything
    of that sort. -/
theorem analyzeImage_branches (hlimit : 1 ≤ options.limits.blockInstructions)
    (h : analyzeImage image context entries options cancelled = .ok analysis) :
    analysis.BranchesReported := by
  rcases exists_session_of_analyzeImage hlimit h with ⟨s, hexplored, hpending, rfl⟩
  -- Nobody else reports under these codes, so the session has all reports.
  have hcount : ∀ code, code = .dynamicTarget ∨ code = .addressWrapped → ∀ a,
      (Analysis.ofSession s options.buildProcedures).diagnostics.countAt code a
        = s.branchesOwed (a, code) := by
    intro code hcode a
    have hexploring : code ∈ DiagnosticCode.ofExploring := by
      rcases hcode with rfl | rfl <;> decide
    rw [← hexplored.countAt_eq hpending hcode, Diagnostics.countAt, Diagnostics.countAt,
      Analysis.filter_ofSession_diagnostics s _ hexploring]
  have howed := hexplored.laidOut.branchesOwed_eq
  refine ⟨fun a => ?_, fun a => ?_, fun a i hi ht => ?_, fun a => ?_⟩
  · rw [hcount _ (Or.inl rfl)]
    exact (howed a).1
  · rw [hcount _ (Or.inr rfl)]
    exact (howed a).2
  · have hi' : s.code.get? a = some i := hi
    have hcomputed : i.isComputed = false := by simp [Instruction.isComputed, ht]
    rw [hcount _ (Or.inl rfl), (howed a).1, hi', Option.any_some, hcomputed]
    rfl
  · rw [hcount _ (Or.inl rfl), hcount _ (Or.inr rfl), (howed a).1, (howed a).2]
    cases s.code.get? a with
    | none => exact Nat.zero_le 1
    | some i =>
        by_cases hcomputed : i.isComputed
        · simp [hcomputed, wraps_eq_false_of_isComputed hcomputed]
        · simp only [Option.any_some, if_neg hcomputed, Nat.zero_add]
          split <;> omega

end Analyses

/-- A conditional jump out of the segment, a call through memory and a jump out of the segment,
    one behind the other. -/
def strayBranches : Image := Image.ofBytes #[0x74, 0xF0, 0xFF, 0x17, 0xEB, 0x80] 0

/-- Each of the three instructions has one report, and the conditional jump has the same sort as the
    other jump. -/
theorem analyzeImage_branches_strayBranches :
    ∃ analysis, analyzeImage strayBranches {} [] {} (fun _ => false) = .ok analysis
      ∧ analysis.diagnostics.countAt .addressWrapped ⟨0, 0⟩ = 1
      ∧ analysis.diagnostics.countAt .dynamicTarget ⟨0, 2⟩ = 1
      ∧ analysis.diagnostics.countAt .addressWrapped ⟨0, 4⟩ = 1
      ∧ analysis.BranchesReported := by
  have hcode : (analyzeImage strayBranches {} [] {} (fun _ => false)).toOption.any
      (fun analysis => (analysis.code.get? ⟨0, 0⟩).any (·.wraps ⟨0, 0⟩)
        && (analysis.code.get? ⟨0, 2⟩).any Instruction.isComputed
        && (analysis.code.get? ⟨0, 4⟩).any (·.wraps ⟨0, 4⟩)) = true := by
    decide +kernel
  rcases exists_ok_of_any hcode with ⟨analysis, h, hany⟩
  simp only [Bool.and_eq_true] at hany
  have hreported := analyzeImage_branches (by decide) h
  refine ⟨analysis, h, ?_, ?_, ?_, hreported⟩
  · rw [hreported.wrapped, if_pos hany.1.1]
  · rw [hreported.computed, if_pos hany.1.2]
  · rw [hreported.wrapped, if_pos hany.2]

end Disasm86
