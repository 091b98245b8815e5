import Disasm86.Explore.Transfer

/-!
# What a Transfer Makes Known

The references of an instruction as a list. `Session.emit` works on a session and takes
several turns, depending on the operands; but what it does is to queue some references,
to record some and perhaps to report one finding, and none of that depends on the
session. `emission` lists it, and `emit_eq_foldl` says that emitting is to go through
the list. After that a fact about emitting is a fact about one note of the list, and
the turns are not taken again.

## Main definitions

* `Note`: One thing that a session is told.
* `Session.note`: A session that is told it.
* `emission`: All that an instruction makes known, in order.

## Theorems

* `record_stores`: Recording touches the log and the warnings only.
* `emit_eq_foldl`: Emitting tells the session the emission.
* `emit_stores`: Emitting touches neither the map of the image nor its blocks.
* `emit_index`: The references of an instruction do not depend on the index.
* `eq_of_recorded_mem_emission`: The only reference that is recorded at once.
-/

namespace Disasm86

/-- One thing that a session is told. -/
inductive Note where
  | queued (r : Reference)
  | recorded (r : Reference)
  | reported (location : Address) (code : DiagnosticCode) (message : String)

/-- Tells a session one thing. -/
def Session.note (s : Session) : Note → Session
  | .queued r => s.enqueue r
  | .recorded r => s.record r
  | .reported location code message => s.report location code message

/-- What is known of the target of a jump or call at `a`. -/
def targetEmission (a : Address) (i : Instruction) (t : Transfer) : List Note :=
  match i.branchTarget? a with
  | none => [.queued ⟨.transfer t, a, .nowhere, .nowhere⟩]
  | some target =>
    if isReachableOffset target.offset then [.queued ⟨.transfer t, a, target, .nowhere⟩]
    else
      [.reported a .addressWrapped
        ("Branch target " ++ Hex.literal 1 target.offset.toUInt32.toNat
          ++ " wraps around the segment"),
       .recorded ⟨.transfer t, a, .nowhere, .nowhere⟩]

/-- All that the instruction at `a` makes known by performing the transfer `t`. -/
def emission (a : Address) (i : Instruction) (t : Transfer) : List Note :=
  (if t.namesTarget then
    ((jumpTableSlot? a i).map fun slot => Note.queued (.probe a slot)).toList
      ++ targetEmission a i t
  else [.recorded ⟨.transfer t, a, .nowhere, .nowhere⟩])
    ++ if t.fallsThrough then [.queued ⟨.fallThrough, a, i.next a, .nowhere⟩] else []

namespace Session

variable (s : Session) (a : Address) (i : Instruction) (t : Transfer)

/-- Recording a reference touches the log and the warnings only. -/
@[simp] theorem record_stores (r : Reference) :
    (s.record r).bytes = s.bytes ∧ (s.record r).code = s.code
      ∧ (s.record r).blocks = s.blocks ∧ (s.record r).queue = s.queue
      ∧ (s.record r).diagnostics = s.diagnostics := by
  unfold record
  by_cases hends : r.isAnchored
  · rw [if_pos hends]
    exact ⟨rfl, rfl, rfl, rfl, rfl⟩
  · rw [if_neg hends]
    exact ⟨rfl, rfl, rfl, rfl, rfl⟩

/-- A jump through a table queues its first slot. -/
theorem emitTable_eq_foldl : s.emitTable a i
    = ((jumpTableSlot? a i).map fun slot => Note.queued (.probe a slot)).toList.foldl note s := by
  unfold emitTable
  cases jumpTableSlot? a i with
  | none => rfl
  | some slot => rfl

/-- A target is queued, or it is reported and recorded. -/
theorem emitTarget_eq_foldl : s.emitTarget a i t = (targetEmission a i t).foldl note s := by
  unfold emitTarget targetEmission
  cases i.branchTarget? a with
  | none => rfl
  | some target =>
      by_cases hreach : isReachableOffset target.offset
      · simp only [if_pos hreach]
        rfl
      · simp only [if_neg hreach]
        rfl

/-- Emitting the references of an instruction is to tell the session its emission. -/
theorem emit_eq_foldl : s.emit a i t = (emission a i t).foldl note s := by
  have hfall : ∀ s : Session, s.emitFallThrough a i t
      = (if t.fallsThrough then [Note.queued ⟨.fallThrough, a, i.next a, .nowhere⟩]
          else []).foldl note s := by
    intro s
    unfold emitFallThrough
    by_cases hf : t.fallsThrough
    · rw [if_pos hf, if_pos hf]
      rfl
    · rw [if_neg hf, if_neg hf]
      rfl
  unfold emit emission
  rw [List.foldl_append]
  by_cases hnames : t.namesTarget
  · rw [if_pos hnames, if_pos hnames, hfall, List.foldl_append, emitTable_eq_foldl,
      emitTarget_eq_foldl]
  · rw [if_neg hnames, if_neg hnames, hfall]
    rfl

/-- The references of an instruction touch neither the map of the image nor its
    blocks. -/
@[simp] theorem emit_stores :
    (s.emit a i t).bytes = s.bytes ∧ (s.emit a i t).code = s.code
      ∧ (s.emit a i t).blocks = s.blocks := by
  -- By induction on what is told, as no single note touches them.
  rw [emit_eq_foldl]
  induction emission a i t generalizing s with
  | nil => exact ⟨rfl, rfl, rfl⟩
  | cons n notes ih =>
      rw [List.foldl_cons]
      simp only [ih]
      cases n with
      | queued r => exact ⟨rfl, rfl, rfl⟩
      | recorded r => simp only [note, record_stores, and_self]
      | reported location code message => exact ⟨rfl, rfl, rfl⟩

/-- An instruction's references do not depend on whether it is indexed already. -/
theorem emit_index : (s.emit a i t).index a i = (s.index a i).emit a i t := by
  rw [emit_eq_foldl, emit_eq_foldl]
  generalize emission a i t = notes
  induction notes generalizing s with
  | nil => rfl
  | cons n notes ih =>
      -- A note touches the queue, the log or the diagnostics, and never the index.
      have hnote : (s.note n).index a i = (s.index a i).note n := by
        cases n with
        | queued r => rfl
        | recorded r =>
            unfold note record
            by_cases hends : r.isAnchored
            · simp only [if_pos hends]
              rfl
            · simp only [if_neg hends]
              rfl
        | reported location code message => rfl
      rw [List.foldl_cons, List.foldl_cons, ih, hnote]

end Session

/-- What a transfer records at once leads nowhere; everything else is queued first. -/
theorem eq_of_recorded_mem_emission {a : Address} {i : Instruction} {t : Transfer}
    {r : Reference} (h : Note.recorded r ∈ emission a i t) :
    r = ⟨.transfer t, a, .nowhere, .nowhere⟩ := by
  -- What execution goes on to is always queued.
  have hfall : ∀ (b : Bool) (r' : Reference),
      Note.recorded r ∉ (if b then [Note.queued r'] else []) := by
    intro b r'
    cases b with
    | false => simp
    | true => simp
  unfold emission at h
  rcases List.mem_append.mp h with h | h
  · by_cases hnames : t.namesTarget
    · rw [if_pos hnames] at h
      rcases List.mem_append.mp h with h | h
      · simp at h
      · unfold targetEmission at h
        split at h
        · simp at h
        · split at h
          · simp at h
          · simpa using h
    · rw [if_neg hnames, List.mem_singleton] at h
      exact Note.recorded.inj h
  · exact absurd h (hfall _ _)

end Disasm86
