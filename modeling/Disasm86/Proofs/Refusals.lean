import Disasm86.Proofs.Accounting

/-!
# Nothing Is Refused

Exploring asks five things of its stores, and each of them may be refused: to mark bytes,
to make a block out of a range, to add that block, to cut a block, and to log a reference.
Whatever is refused is kept as a warning. There are no warnings, because exploring asks
only for what the stores can do.

That bytes can be marked, blocks added and blocks cut has been used up before: the
relations that say what following a reference comes to have no case for a refusal, since a
session whose stores are laid out has none. What is left are the references. The log
refuses one without ends, and exploring makes references of three sorts that could have
none. Those recorded by a transfer or a cut leave an instruction of the image. Those that
waited in the queue are the reason for an invariant: everything that is pending has an end.

## Main definitions

* `Session.Unrefused`: There are no warnings, and no reference is without ends.

## Theorems

* `record_warnings`, `emit_warnings`: References with an end raise no warning.
* `Visited.warnings_eq`: A visit raises no warning.
* `Followed.unrefused`: Following a reference raises none and leaves none without ends.
* `Explored.warnings_eq_empty`: Nothing that exploring asks for is refused.
-/

namespace Disasm86

namespace Session

variable (s : Session)

/-- A reference that has an end is logged without a warning. -/
theorem record_warnings {r : Reference} (h : r.isAnchored) :
    (s.record r).warnings = s.warnings := by
  unfold record
  rw [if_pos h]

/-- The references of an instruction leave it, so they have an end. -/
theorem emit_warnings {a : Address} (h : a.isSomewhere) (i : Instruction) (t : Transfer) :
    (s.emit a i t).warnings = s.warnings := by
  -- What is recorded at once leaves the instruction.
  have hanchored : ∀ r, Note.recorded r ∈ emission a i t → r.isAnchored := by
    intro r hr
    rw [eq_of_recorded_mem_emission hr, Reference.isAnchored, h, Bool.true_or]
  rw [emit_eq_foldl]
  generalize emission a i t = notes at hanchored
  induction notes generalizing s with
  | nil => rfl
  | cons n notes ih =>
      rw [List.foldl_cons, ih _ fun r hr => hanchored r (List.mem_cons_of_mem n hr)]
      cases n with
      | queued r => rfl
      | recorded r => exact s.record_warnings (hanchored r List.mem_cons_self)
      | reported location code message => rfl

/-- A block that is closed warns of nothing, even if it is broken. That is reported as a
    diagnostic. -/
theorem close_warnings (start : Address) (is : List Instruction) (kind : BlockKind) :
    (s.close start is kind).warnings = s.warnings := by
  unfold close
  by_cases hk : kind = .broken
  · rw [if_pos hk]
    rfl
  · rw [if_neg hk]

/-- There are no warnings, and every reference has an end that is known. The second is what keeps
    the log from refusing a reference later on. -/
structure Unrefused : Prop where
  quiet : s.warnings = #[]
  anchored : ∀ r ∈ s.mentions, r.isAnchored

end Session

section Steps

variable {e : Explorer} {s s' : Session} {r : Reference}

/-- Before a block is closed, nothing has been refused. -/
theorem Ending.warnings_eq {start : Address} {is : List Instruction} {i : Instruction}
    {kind : BlockKind} (hlast : (Run.stop start is).isSomewhere)
    (h : Ending s start is i kind s') : s'.warnings = s.warnings := by
  have htake : (s.takeRun start (is ++ [i])).warnings = s.warnings := by
    rw [Session.takeRun_eq]
  cases h with
  | ranOn ht => exact htake
  | brokeOff ht code message hreport => exact htake
  | transferred t ht => rw [Session.emit_warnings _ hlast, htake]

/-- A visit asks for nothing that is refused. -/
theorem Visited.warnings_eq (hlaid : LaidOut e.image e.context s) (hv : Visited e s r s') :
    s'.warnings = s.warnings := by
  cases hv with
  | misdirected code what h => rfl
  | known id h => rfl
  | cut id whole j last i hget hin hj hne hi hnext hlast straight =>
      refine Session.record_warnings _ ?_
      rw [Reference.isAnchored, hlaid.isSomewhere hi, Bool.true_or]
  | stuck code message h => rfl
  | decoded is i kind s1 fresh straight hlen hending =>
      have hlast := (isRun_append.mp (Session.isRun_takeRun s fresh.run)).2.1
      rw [Session.close_warnings]
      exact hending.warnings_eq ((hlaid.toIndexed.takeRun fresh).isSomewhere hlast)

/-- What a visit mentions for the first time leaves an instruction, so it has an end. -/
theorem Visited.isAnchored (hlaid : LaidOut e.image e.context s) (hv : Visited e s r s')
    (hs : ∀ r' ∈ s.mentions, r'.isAnchored) : ∀ r' ∈ s'.mentions, r'.isAnchored := by
  intro r' hr'
  rcases hv.accounts hlaid with ⟨new, hmentions, hnew, -⟩
  rcases List.mem_append.mp (hmentions.mem_iff.mp hr') with hmem | hold
  · rcases hnew r' hmem with ⟨i, hi⟩
    rw [Reference.isAnchored, (hv.laidOut hlaid).isSomewhere hi, Bool.true_or]
  · exact hs r' hold

/-- Following a reference that has an end raises no warning, and leaves no reference
    without ends behind. -/
theorem Followed.unrefused (hlaid : LaidOut e.image e.context s) (hf : Followed e s r s')
    (hr : r.isAnchored) (hs : s.Unrefused) : s'.Unrefused := by
  -- Recording the reference itself is the last thing that is asked for.
  have hrecord : ∀ {s : Session}, s.Unrefused → (s.record r).Unrefused := by
    intro s hs
    refine ⟨(s.record_warnings hr).trans hs.quiet, fun r' hr' => ?_⟩
    rcases List.mem_cons.mp ((s.mentions_record hr).mem_iff.mp hr') with rfl | hold
    · exact hr
    · exact hs.anchored r' hold
  cases hf with
  | slot hprobe s' h =>
      cases h with
      | refused => exact hs
      | accepted word hword hlimit hfree hin hlanding hself =>
          -- A probe has no target, so the end that it has is its source.
          have hsource : r.source.isSomewhere := by
            simp only [Reference.isProbe, Bool.and_eq_true, Bool.not_eq_true'] at hprobe
            rw [Reference.isAnchored, hprobe.2, Bool.or_false] at hr
            exact hr
          refine ⟨hs.quiet, fun r' hr' => ?_⟩
          rcases List.mem_cons.mp ((Session.mentions_enqueue _ _).mem_iff.mp hr') with rfl | hr'
          · rw [Reference.isAnchored, Reference.probe, hsource, Bool.true_or]
          · rcases List.mem_cons.mp ((Session.mentions_enqueue _ _).mem_iff.mp hr')
              with rfl | hold
            · rw [Reference.isAnchored, hsource, Bool.true_or]
            · exact hs.anchored r' hold
  | dynamic hprobe htarget => exact hrecord ⟨hs.quiet, hs.anchored⟩
  | visited htarget s' hv =>
      exact hrecord ⟨(hv.warnings_eq hlaid).trans hs.quiet, hv.isAnchored hlaid hs.anchored⟩

end Steps

/-- Calls that lead from a fresh session to another have been refused nothing. -/
theorem Explored.unrefused {image : Image} {context : DecodeContext} {s : Session}
    (h : Explored image context (fun limits => 1 ≤ limits.blockInstructions) s) :
    s.Unrefused := by
  refine (h.keeps_laidOut (P := Session.Unrefused) (fun _ hl => hl) ?_ ?_ ?_).2
  · exact ⟨rfl, fun r hr => (by cases hr)⟩
  · -- An entry point is queued only if it is somewhere, so its reference has an end.
    intro s entry kind hs hentry
    refine ⟨hs.quiet, fun r hr => ?_⟩
    rcases List.mem_cons.mp ((s.mentions_enqueue _).mem_iff.mp hr) with rfl | hold
    · rw [Reference.isAnchored, hentry, Bool.or_true]
    · exact hs.anchored r hold
  · intro s limits r queue s' hs _ hpop hlaid hf
    have hmentions := s.mentions_pop hpop
    refine hf.unrefused hlaid (hs.anchored r (hmentions.mem_iff.mpr List.mem_cons_self))
      ⟨hs.quiet, fun r' hr' => ?_⟩
    exact hs.anchored r' (hmentions.mem_iff.mpr (List.mem_cons_of_mem r hr'))

/-- In an explored session there are no warnings: no byte, block, cut or reference that exploring
    has asked its stores for was refused. The stores check what they are asked, and exploring never
    asks for anything that fails the check. -/
theorem Explored.warnings_eq_empty {image : Image} {context : DecodeContext} {s : Session}
    (h : Explored image context (fun limits => 1 ≤ limits.blockInstructions) s) :
    s.warnings = #[] :=
  h.unrefused.quiet

/-- A jump through a table of two slots, and the loop that both lead into. The second slot
    names the second instruction of the loop. -/
def caseJump : Image := Image.ofBytes
  #[0x2E, 0xFF, 0xA7, 0x05, 0x00, 0x0B, 0x00, 0x0C, 0x00, 0xFF, 0xFF, 0x90, 0x90, 0xEB, 0xFC] 0

/-- Slots are marked, blocks added and one of them cut, and nothing is refused. -/
theorem warnings_eq_empty_caseJump :
    ∃ s, Explorer.analyze ⟨caseJump, {}, {}⟩ (fun _ => false) ⟨0, 0⟩ .entry .fresh
        = .ok (s, .ok ())
      ∧ s.bytes.count .data = 4 ∧ s.blocks.size = 3 ∧ s.references.size = 6
      ∧ s.warnings = #[] := by
  have hfound : (Explorer.analyze ⟨caseJump, {}, {}⟩ (fun _ => false) ⟨0, 0⟩ .entry
      .fresh).toOption.any (fun x => x.2.isOk && decide
        (x.1.bytes.count .data = 4 ∧ x.1.blocks.size = 3 ∧ x.1.references.size = 6)) = true := by
    decide +kernel
  rcases exists_session_of_any (fun s => decide (s.bytes.count .data = 4 ∧ s.blocks.size = 3
    ∧ s.references.size = 6)) hfound with ⟨s, hcall, hcounts⟩
  rcases of_decide_eq_true hcounts with ⟨hdata, hblocks, hreferences⟩
  exact ⟨s, hcall, hdata, hblocks, hreferences,
    Explored.warnings_eq_empty (Explored.fresh.analyze {} (by decide) _ _ _ hcall)⟩

end Disasm86
