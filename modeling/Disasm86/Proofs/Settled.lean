import Disasm86.Proofs.Tiling

/-!
# Settled References

No reference is lost silently. Once a reference has been followed, a block starts at
its target, or a diagnostic at the target says why there is none.

An address stays settled, because blocks keep their starts and diagnostics are never
withdrawn. `Grown` says that of any two sessions one of which was made out of the
other; every small update makes a session grow, and so does every step. What is left is
to look at the targets that a step records. It records its own reference, whose target
it has just settled. Cutting a block records one more with the same target, and
decoding a transfer may record one, but only if that leads nowhere.

## Main definitions

* `DiagnosticCode.isDeadEnd`: The findings that keep a block from being decoded.
* `Settled`: A block starts at an address, or a diagnostic says why none does.
* `Grown`: Blocks keep their starts and diagnostics stay.

## Theorems

* `Settled.grown`: An address stays settled.
* `emit_grown`, `close_grown`: Small updates make a session grow.
* `Visited.grown`, `Visited.settled`: A visit settles its target and unsettles none.
* `Visited.mem_references`: The targets that a visit records.
* `Followed.settled`: Following a reference settles all that it records.
* `Explored.target_settled`: The targets of all recorded references are settled.
-/

namespace Disasm86

/-- The findings that keep a block from being decoded at an address. -/
def DiagnosticCode.isDeadEnd : DiagnosticCode → Bool
  | .outOfImage | .ranIntoData | .ranIntoCode | .invalidInstruction
  | .overlappingInstruction => true
  | _ => false

/-- All of them are errors, not only warnings. -/
theorem DiagnosticCode.severity_of_isDeadEnd {code : DiagnosticCode} (h : code.isDeadEnd) :
    code.severity = .error := by
  revert h
  cases code <;> decide

/-- A block starts at the address, or an error there says why none does. Once it is so it stays so,
    as blocks keep their starts and reports are not withdrawn. -/
def Settled (s : Session) (a : Address) : Prop :=
  (∃ id b, s.blocks.get? id = some b ∧ b.start = a)
    ∨ ∃ d ∈ s.diagnostics.toList, d.location = a ∧ d.code.isDeadEnd ∧ d.severity = .error

/-- Blocks keep their numbers and their starts, and diagnostics stay. -/
structure Grown (s s' : Session) : Prop where
  starts : ∀ {id b}, s.blocks.get? id = some b →
    ∃ b', s'.blocks.get? id = some b' ∧ b'.start = b.start
  diagnostics : ∀ {d}, d ∈ s.diagnostics.toList → d ∈ s'.diagnostics.toList

/-- What is settled stays settled. Cutting a block leaves a block with its start, and nothing else
    is ever done to a block. -/
theorem Settled.grown {s s' : Session} {a : Address} (h : Settled s a) (hg : Grown s s') :
    Settled s' a := by
  rcases h with ⟨id, b, hget, hstart⟩ | ⟨d, hd, hwhy⟩
  · rcases hg.starts hget with ⟨b', hget', hstart'⟩
    exact Or.inl ⟨id, b', hget', hstart'.trans hstart⟩
  · exact Or.inr ⟨d, hg.diagnostics hd, hwhy⟩

namespace Grown

variable {s s' s'' : Session}

theorem trans (h : Grown s s') (h' : Grown s' s'') : Grown s s'' where
  starts := by
    intro id b hget
    rcases h.starts hget with ⟨b', hget', hstart'⟩
    rcases h'.starts hget' with ⟨b'', hget'', hstart''⟩
    exact ⟨b'', hget'', hstart''.trans hstart'⟩
  diagnostics := fun hd => h'.diagnostics (h.diagnostics hd)

/-- A session grows if its blocks are left alone and its diagnostics stay. -/
theorem of_blocks_eq (hblocks : s'.blocks = s.blocks)
    (hdiagnostics : ∀ d ∈ s.diagnostics.toList, d ∈ s'.diagnostics.toList) : Grown s s' where
  starts := by
    intro id b hget
    exact ⟨b, by rw [hblocks]; exact hget, rfl⟩
  diagnostics := fun hd => hdiagnostics _ hd

end Grown

namespace Session

variable (s : Session)

theorem mem_report_diagnostics {a : Address} {code : DiagnosticCode} {message : String}
    {d : Diagnostic} : d ∈ (s.report a code message).diagnostics.toList ↔
      d ∈ s.diagnostics.toList ∨ d = ⟨a, code, message⟩ := by
  simp only [report, Diagnostics.report, Diagnostics.toList, Array.toList_push, List.mem_append,
    List.mem_singleton]

theorem report_grown (a : Address) (code : DiagnosticCode) (message : String) :
    Grown s (s.report a code message) :=
  Grown.of_blocks_eq rfl fun _ hd => s.mem_report_diagnostics.mpr (Or.inl hd)

theorem record_grown (r : Reference) : Grown s (s.record r) :=
  Grown.of_blocks_eq (by simp only [record_stores]) fun d hd => by
    simp only [record_stores]
    exact hd

/-- Emitting neither touches a block nor withdraws a diagnostic, by induction on the notes. -/
theorem emit_grown (a : Address) (i : Instruction) (t : Transfer) : Grown s (s.emit a i t) := by
  rw [emit_eq_foldl]
  induction emission a i t generalizing s with
  | nil => exact Grown.of_blocks_eq rfl fun _ hd => hd
  | cons n notes ih =>
      have hnote : Grown s (s.note n) := by
        cases n with
        | queued r => exact Grown.of_blocks_eq rfl fun _ hd => hd
        | recorded r => exact s.record_grown r
        | reported location code message => exact s.report_grown location code message
      exact hnote.trans (ih _)

theorem takeRun_grown (start : Address) (is : List Instruction) :
    Grown s (s.takeRun start is) := by
  rw [takeRun_eq]
  exact Grown.of_blocks_eq rfl fun _ hd => hd

/-- A new block gets a number of its own, and at most one diagnostic is added. -/
theorem close_grown (start : Address) (is : List Instruction) (kind : BlockKind) :
    Grown s (s.close start is kind) where
  starts := by
    intro id b hget
    refine ⟨b, ?_, rfl⟩
    rw [(close_stores s start is kind).2.2.1]
    exact BlockStore.get?_push_of_get? hget
  diagnostics := by
    intro d hd
    unfold close
    by_cases hk : kind = .broken
    · rw [if_pos hk]
      exact s.mem_report_diagnostics.mpr (Or.inl hd)
    · rw [if_neg hk]
      exact hd

/-- The new block is one of those that start where the run starts. -/
theorem close_settled (start : Address) (is : List Instruction) (kind : BlockKind) :
    Settled (s.close start is kind) start := by
  refine Or.inl ⟨s.blocks.size, Run.block start is kind, ?_, rfl⟩
  rw [(close_stores s start is kind).2.2.1, BlockStore.get?_push_self]

/-- Recording adds the reference, or not even that if it has no end that is somewhere. -/
theorem mem_record_references {r r' : Reference}
    (h : r' ∈ (s.record r).references.toList) : r' ∈ s.references.toList ∨ r' = r := by
  unfold record at h
  by_cases hends : r.isAnchored
  · rw [if_pos hends] at h
    simp only [ReferenceLog.push, ReferenceLog.toList, Array.toList_push, List.mem_append,
      List.mem_singleton] at h
    exact h
  · rw [if_neg hends] at h
    exact Or.inl h

/-- What emitting adds to the log stands in the emission. -/
theorem mem_emit_references {a : Address} {i : Instruction} {t : Transfer} {r : Reference}
    (h : r ∈ (s.emit a i t).references.toList) :
    r ∈ s.references.toList ∨ Note.recorded r ∈ emission a i t := by
  rw [emit_eq_foldl] at h
  -- The notes are taken one by one, and each of them is blamed for itself only.
  generalize emission a i t = notes at h
  induction notes generalizing s with
  | nil => exact Or.inl h
  | cons n notes ih =>
      rcases ih (s.note n) h with hold | hnew
      · cases n with
        | queued r' => exact Or.inl hold
        | recorded r' =>
            rcases s.mem_record_references hold with hold | rfl
            · exact Or.inl hold
            · exact Or.inr List.mem_cons_self
        | reported location code message => exact Or.inl hold
      · exact Or.inr (List.mem_cons_of_mem n hnew)

end Session

section Steps

variable {e : Explorer} {s s' : Session} {r r' : Reference}

/-- Taking over the run changes no block, and whatever comes behind it adds diagnostics at most. -/
theorem Ending.grown {start : Address} {is : List Instruction} {i : Instruction}
    {kind : BlockKind} (h : Ending s start is i kind s') : Grown s s' := by
  have htake := s.takeRun_grown start (is ++ [i])
  cases h with
  | ranOn ht => exact htake.trans (Grown.of_blocks_eq rfl fun _ hd => hd)
  | brokeOff ht code message hreport => exact htake.trans (Session.report_grown _ _ _ _)
  | transferred t ht => exact htake.trans (Session.emit_grown _ _ _ _)

/-- Of all visits only a cut changes a block that is there, and the part that keeps its number keeps
    its start. -/
theorem Visited.grown (hv : Visited e s r s') : Grown s s' := by
  cases hv with
  | misdirected code what h => exact s.report_grown _ _ _
  | known id h => exact Grown.of_blocks_eq rfl fun _ hd => hd
  | cut id whole j last i hget hin hj hne hi hnext hlast straight =>
      have hcut : Grown s { s with blocks := s.blocks.cut id whole r.target } := by
        refine ⟨fun {k b} hb => ?_, fun hd => hd⟩
        by_cases hkid : k = id
        · -- The first part of the block keeps its number and its start.
          rw [hkid, hget, Option.some.injEq] at hb
          rw [hkid, ← hb]
          exact ⟨_, BlockStore.get?_cut_head hget, rfl⟩
        · exact ⟨b, BlockStore.get?_cut_other hget hkid hb, rfl⟩
      exact hcut.trans (Session.record_grown _ _)
  | stuck code message h => exact s.report_grown _ _ _
  | decoded is i kind s' fresh straight hlen hending =>
      exact hending.grown.trans (Session.close_grown _ _ _ _)

/-- After a visit a block starts at the target, or the visit has reported why not. -/
theorem Visited.settled (hs : s.blocks.WellFormed) (hv : Visited e s r s') :
    Settled s' r.target := by
  -- A visit that reports does so at the target, under one of the codes in question.
  have hreport : ∀ {code : DiagnosticCode} {message : String}, code.isDeadEnd →
      Settled (s.report r.target code message) r.target := by
    intro code message hcode
    exact Or.inr ⟨⟨r.target, code, message⟩, s.mem_report_diagnostics.mpr (Or.inr rfl), rfl,
      hcode, DiagnosticCode.severity_of_isDeadEnd hcode⟩
  cases hv with
  | misdirected code what h =>
      refine hreport ?_
      cases h with
      | outside h => rfl
      | data h => rfl
      | inside h => rfl
  | known id h =>
      rcases hs.startingAt?_iff.mp h with ⟨b, hget, hstart⟩
      exact Or.inl ⟨id, b, hget, hstart⟩
  | cut id whole j last i hget hin hj hne hi hnext hlast straight =>
      -- The second part of the block starts at the target.
      exact Settled.grown (Or.inl ⟨s.blocks.size, _, BlockStore.get?_cut_tail hget, rfl⟩)
        (Session.record_grown _ _)
  | stuck code message h =>
      refine hreport ?_
      cases h with
      | outside h => rfl
      | undecodable code cause hw hd => rfl
      | overlap i hi hknown => rfl
  | decoded is i kind s' fresh straight hlen hending => exact Session.close_settled _ _ _ _

/-- What a visit records leads to its target or nowhere, and never through a table. -/
theorem Visited.mem_references (hv : Visited e s r s') (h : r' ∈ s'.references.toList) :
    r' ∈ s.references.toList
      ∨ r'.kind ≠ .indexedJump ∧ (r'.target = r.target ∨ r'.target = .nowhere) := by
  have htake : ∀ is, (s.takeRun r.target is).references = s.references := by
    intro is
    rw [Session.takeRun_eq]
  cases hv with
  | misdirected code what h' => exact Or.inl h
  | known id h' => exact Or.inl h
  | cut id whole j last i hget hin hj hne hi hnext hlast straight =>
      rcases Session.mem_record_references _ h with hold | rfl
      · exact Or.inl hold
      · exact Or.inr ⟨fun hkind => (by cases hkind), Or.inl rfl⟩
  | stuck code message h' => exact Or.inl h
  | decoded is i kind s' fresh straight hlen hending =>
      simp only [Session.close_stores] at h
      -- References of a new block are queued, except for those that lead nowhere.
      cases hending with
      | ranOn ht =>
          rw [Session.enqueue, htake] at h
          exact Or.inl h
      | brokeOff ht code message hreport =>
          rw [Session.report, htake] at h
          exact Or.inl h
      | transferred t ht =>
          rcases Session.mem_emit_references _ h with hold | hnew
          · rw [htake] at hold
            exact Or.inl hold
          · rw [eq_of_recorded_mem_emission hnew]
            exact Or.inr ⟨fun hkind => (by cases hkind), Or.inr rfl⟩

/-- Following a reference settles all that it records. -/
theorem Followed.settled (hf : Followed e s r s') (hlaid : s.blocks.WellFormed)
    (hs : ∀ r ∈ s.references.toList, r.target.isSomewhere → Settled s r.target)
    (hr : r' ∈ s'.references.toList)
    (htarget : r'.target.isSomewhere) : Settled s' r'.target := by
  cases hf with
  | slot hprobe s' h =>
      cases h with
      | refused => exact hs r' hr htarget
      | accepted word hword hlimit hfree hin hlanding hself =>
          exact (hs r' hr htarget).grown (Grown.of_blocks_eq rfl fun _ hd => hd)
  | dynamic hprobe hnowhere =>
      rcases Session.mem_record_references _ hr with hold | rfl
      · exact (hs r' hold htarget).grown
          ((s.report_grown _ _ _).trans (Session.record_grown _ _))
      · -- A dynamic reference leads nowhere, and is none of those in question.
        exact absurd htarget hnowhere
  | visited hsome s' hv =>
      -- The visit settles its own target, and whatever it records besides leads there too.
      have hsettled := (hv.settled hlaid).grown (Session.record_grown s' r)
      rcases Session.mem_record_references _ hr with hrecorded | rfl
      · rcases hv.mem_references hrecorded with hold | ⟨-, heq | heq⟩
        · exact (hs r' hold htarget).grown (hv.grown.trans (Session.record_grown _ _))
        · rw [heq]
          exact hsettled
        · rw [heq] at htarget
          exact absurd htarget (by decide)
      · exact hsettled

end Steps

/-- In an explored session, the target of every recorded reference is the start of a block, or an
    error is reported there that says why it is not. References are recorded after their target has
    been looked at, and a target that is settled stays so. -/
theorem Explored.target_settled {image : Image} {context : DecodeContext} {s : Session}
    (h : Explored image context (fun limits => 1 ≤ limits.blockInstructions) s) :
    ∀ r ∈ s.references.toList, r.target.isSomewhere → Settled s r.target := by
  refine (h.keeps_laidOut
    (P := fun s => ∀ r ∈ s.references.toList, r.target.isSomewhere → Settled s r.target)
    (fun _ hl => hl) ?_ ?_ ?_).2
  · -- Nothing has been recorded in a fresh session, queueing records nothing, and a step is
    -- `Followed.settled`.
    intro r hr
    cases hr
  · intro s entry kind hs _
    exact hs
  · intro s limits r queue s' hs _ _ hlaid hfollowed r' hr htarget
    exact hfollowed.settled hlaid.wellFormed hs hr htarget

/-- A jump whose target lies behind the only segment. -/
def jumpOut : Image := Image.ofBytes #[0xEB, 0x10] 0

/-- The jump has been recorded, and its target is settled by a report. -/
theorem target_settled_jumpOut :
    ∃ s, Explorer.analyze ⟨jumpOut, {}, {}⟩ (fun _ => false) ⟨0, 0⟩ .entry .fresh
        = .ok (s, .ok ())
      ∧ ⟨.transfer .nearJump, ⟨0, 0⟩, ⟨0, 0x12⟩, .nowhere⟩ ∈ s.references.toList
      ∧ Settled s ⟨0, 0x12⟩ := by
  have hfound : (Explorer.analyze ⟨jumpOut, {}, {}⟩ (fun _ => false) ⟨0, 0⟩ .entry
      .fresh).toOption.any (fun x => x.2.isOk && decide
        (⟨.transfer .nearJump, ⟨0, 0⟩, ⟨0, 0x12⟩, .nowhere⟩ ∈ x.1.references.toList)) = true := by
    decide +kernel
  rcases exists_session_of_any (fun s => decide
    (⟨.transfer .nearJump, ⟨0, 0⟩, ⟨0, 0x12⟩, .nowhere⟩ ∈ s.references.toList)) hfound
    with ⟨s, hcall, hmem⟩
  have hfresh : Explored jumpOut {} (fun limits => 1 ≤ limits.blockInstructions) .fresh := .fresh
  exact ⟨s, hcall, of_decide_eq_true hmem, Explored.target_settled
    (hfresh.analyze {} (by decide) _ _ _ hcall) _ (of_decide_eq_true hmem) (by decide)⟩

end Disasm86
