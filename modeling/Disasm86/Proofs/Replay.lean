import Disasm86.Proofs.Draining
import Disasm86.Proofs.Refusals
import Disasm86.Proofs.Settled

/-!
# Following a Reference Again

A reference that has been recorded has nothing left to tell. To follow it once more
records it once more, and may repeat a report, but it decodes nothing, cuts nothing and
queues nothing.

If a block starts at the target, a block starts there for good. Otherwise the target was
found barred: the image has no instruction there, or one that reaches into bytes which are
known. Its surroundings may be classified later, and the target itself may become part of
another instruction or of a slot, yet it never becomes the start of an instruction. For
that all bytes of the instruction would have had to be unknown when it was taken over, and
bytes that are known stay as they are.

To follow a reference again cannot fail either. If an instruction at the target has to be
named, it has been named before.

Entry points are no different. Once exploring has finished, the entry point has been
recorded, so to explore from it again follows one reference that is exhausted.

## Main definitions

* `Barred`: No block can be decoded or cut at an address.
* `Spent`: A block starts at an address, or the address is barred.
* `Kept`: Marks and instructions of one session are those of another.
* `Exhausted`: There is nothing to be found by following a reference.
* `Session.Repeats`: A session with one more record and at most one more diagnostic.

## Theorems

* `Barred.kept`: An address stays barred.
* `Followed.kept`, `Followed.grown`: Following a reference takes back nothing.
* `Visited.spent`: A visit leaves its target spent.
* `Followed.exhausted`: Recorded references are exhausted.
* `Spent.eq_nil_of_fresh`: Nothing can be taken over from a spent address.
* `Exhausted.exists_process_eq_ok`: Following an exhausted reference does not fail.
* `process_repeats`: Following an exhausted reference repeats it.
* `Followed.mem_mentions`: References are recorded before they leave the queue.
* `Explored.repeats`: Recorded references and finished entry points lead to nothing new.
-/

namespace Disasm86

/-- No block starts at the address or ever will. No instruction is indexed there, and if the image
    has one there, some byte of it is known to be something else. As long as nothing is known of the
    address itself, that instruction can be named; otherwise looking at it again would not come to
    an end. -/
structure Barred (image : Image) (context : DecodeContext) (s : Session) (a : Address) :
    Prop where
  unindexed : s.code.get? a = none
  taken : ∀ i, image.instructionAt? context a = some i →
    ∃ b, a.Spans i.length b ∧ (s.bytes.get b).kind ≠ .unknown
  named : ∀ i, image.instructionAt? context a = some i → (s.bytes.get a).kind = .unknown →
    ∃ text, i.text = .ok text

/-- A block starts at the address, or none ever will. -/
def Spent (image : Image) (context : DecodeContext) (s : Session) (a : Address) : Prop :=
  (∃ id b, s.blocks.get? id = some b ∧ b.start = a) ∨ Barred image context s a

/-- Bytes that are known keep their marks, and instructions stay indexed. -/
structure Kept (s s' : Session) : Prop where
  bytes : ∀ {a}, (s.bytes.get a).kind ≠ .unknown → s'.bytes.get a = s.bytes.get a
  code : ∀ {a i}, s.code.get? a = some i → s'.code.get? a = some i

/-- A reference that is no slot to be read, and whose target is spent if it has one. Following it
    once more cannot discover anything. -/
def Exhausted (image : Image) (context : DecodeContext) (s : Session) (r : Reference) : Prop :=
  ¬ r.isProbe ∧ (r.target.isSomewhere → Spent image context s r.target)

section Addresses

variable {image : Image} {context : DecodeContext} {s s' : Session} {a : Address}
  {r : Reference}

/-- An address stays barred. A byte that kept an instruction from being taken over would
    by now have to belong to that very instruction. -/
theorem Barred.kept (h : Barred image context s a) (hs : Indexed image context s)
    (hs' : Indexed image context s') (hk : Kept s s') : Barred image context s' a := by
  refine ⟨?_, fun i hi => ?_, fun i hi hunknown => h.named i hi ?_⟩
  · cases hi : s'.code.get? a with
    | none => rfl
    | some i =>
        rcases h.taken i (hs'.decoded hi) with ⟨b, hspan, hknown⟩
        have hmark := hs'.marked hi hspan
        rw [hk.bytes hknown] at hmark
        -- The byte was code before, so another instruction had it, and still has.
        rcases hs.covered (b := b) (by rw [hmark]) with ⟨c, j, hj, hspan'⟩
        have heq := hs'.unique hi (hk.code hj) hspan hspan'
        rw [← heq, h.unindexed] at hj
        cases hj
  · rcases h.taken i hi with ⟨b, hspan, hknown⟩
    exact ⟨b, hspan, by rw [hk.bytes hknown]; exact hknown⟩
  · -- What is unknown now has never been known.
    by_contra hknown
    rw [hk.bytes hknown] at hunknown
    exact hknown hunknown

/-- Neither blocks nor what bars an address ever goes away. -/
theorem Spent.stays (h : Spent image context s a) (hs : LaidOut image context s)
    (hs' : LaidOut image context s') (hk : Kept s s') (hg : Grown s s') :
    Spent image context s' a := by
  rcases h with ⟨id, b, hget, hstart⟩ | hbarred
  · rcases hg.starts hget with ⟨b', hget', hstart'⟩
    exact Or.inl ⟨id, b', hget', hstart'.trans hstart⟩
  · exact Or.inr (hbarred.kept hs.toIndexed hs'.toIndexed hk)

/-- Bytes, instructions and blocks decide. -/
theorem Spent.congr (h : Spent image context s a) (hbytes : s'.bytes = s.bytes)
    (hcode : s'.code = s.code) (hblocks : s'.blocks = s.blocks) : Spent image context s' a := by
  rcases h with hstart | ⟨hunindexed, htaken, hnamed⟩
  · exact Or.inl (by rw [hblocks]; exact hstart)
  · exact Or.inr ⟨by rw [hcode]; exact hunindexed, by rw [hbytes]; exact htaken,
      by rw [hbytes]; exact hnamed⟩

theorem Exhausted.congr {r : Reference} (h : Exhausted image context s r)
    (hbytes : s'.bytes = s.bytes) (hcode : s'.code = s.code) (hblocks : s'.blocks = s.blocks) :
    Exhausted image context s' r :=
  ⟨h.1, fun htarget => (h.2 htarget).congr hbytes hcode hblocks⟩

/-- A byte that is known and leads no instruction is barred. -/
theorem Barred.of_known (hs : Indexed image context s) (hlead : s.bytes.get a ≠ ⟨.code, true⟩)
    (hknown : (s.bytes.get a).kind ≠ .unknown) : Barred image context s a := by
  refine ⟨hs.get?_eq_none hlead, fun i hi => ⟨a, ?_, hknown⟩, fun i _ h => absurd h hknown⟩
  exact Address.spans_self (Image.instructionAt?_eq_some hi).1

/-- An address at which the image has no instruction is barred. -/
theorem Barred.of_undecodable (hs : Indexed image context s)
    (h : ∀ i, image.instructionAt? context a ≠ some i) : Barred image context s a := by
  refine ⟨?_, fun i hi => absurd hi (h i), fun i hi => absurd hi (h i)⟩
  cases hi : s.code.get? a with
  | none => rfl
  | some i => exact absurd (hs.decoded hi) (h i)

end Addresses

section Steps

variable {e : Explorer} {s s' : Session} {r r' : Reference}

/-- A visit takes over unknown bytes only. -/
theorem Visited.kept (hlaid : LaidOut e.image e.context s) (hv : Visited e s r s') :
    Kept s s' := by
  refine ⟨fun {a} hknown => ?_, fun hi => hv.get?_code hlaid hi⟩
  cases hv with
  | misdirected code what h => rfl
  | known id h => rfl
  | cut id whole j last i hget hin hj hne hi hnext hlast straight =>
      simp only [Session.record_stores]
  | stuck code message h hunknown => rfl
  | decoded is i kind s1 fresh straight hlen hending =>
      simp only [Session.close_stores, hending.stores]
      exact Session.takeRun_get_outside s fresh.run fun hspan => hknown (fresh.unknown a hspan)

/-- So does the reading of a slot. -/
theorem SlotRead.kept (hr : SlotRead e s r s') : Kept s s' := by
  cases hr with
  | refused => exact ⟨fun _ => rfl, fun hi => hi⟩
  | accepted word hword hlimit hfree hin hlanding hself =>
      rcases Image.bytes?_eq_some hword with ⟨h0, hend, -⟩
      refine ⟨fun {a} hknown => ?_, fun hi => hi⟩
      have hput := ByteMap.get_put s.bytes r.slot a .data 2 h0 (by omega)
      rw [if_neg fun hspan => hknown (hfree a hspan)] at hput
      exact hput

/-- What is known before a reference is followed is known afterwards. -/
theorem Followed.kept (hlaid : LaidOut e.image e.context s) (hf : Followed e s r s') :
    Kept s s' := by
  have hrecord : ∀ {s' : Session}, Kept s s' → Kept s (s'.record r) := by
    intro s' hk
    constructor <;> simp only [Session.record_stores]
    · exact hk.bytes
    · exact hk.code
  cases hf with
  | slot hprobe s' h => exact h.kept
  | dynamic hprobe htarget => exact hrecord ⟨fun _ => rfl, fun hi => hi⟩
  | visited htarget s' hv => exact hrecord (hv.kept hlaid)

/-- Blocks keep their starts and reports are not withdrawn. -/
theorem Followed.grown (hf : Followed e s r s') : Grown s s' := by
  cases hf with
  | slot hprobe s' h =>
      cases h with
      | refused => exact Grown.of_blocks_eq rfl fun _ hd => hd
      | accepted word hword hlimit hfree hin hlanding hself =>
          exact Grown.of_blocks_eq rfl fun _ hd => hd
  | dynamic hprobe htarget => exact (s.report_grown _ _ _).trans (Session.record_grown _ _)
  | visited htarget s' hv => exact hv.grown.trans (Session.record_grown _ _)

/-- A target that is reported as soon as it is looked at is barred. -/
theorem Misdirected.barred {a : Address} {code : DiagnosticCode} {what : String}
    (h : Misdirected e s a code what) (hs : Indexed e.image e.context s) :
    Barred e.image e.context s a := by
  cases h with
  -- Outside of the image nothing decodes, and a known byte bars itself.
  | outside hout =>
      refine Barred.of_undecodable hs fun i hi => hout ?_
      rcases Image.instructionAt?_eq_some hi with ⟨hpos, -, -, hin, -⟩
      exact hin a (Address.spans_self hpos)
  | data hdata =>
      refine Barred.of_known hs (fun hlead => ?_) fun hunknown => ?_
      · rw [hlead] at hdata
        simp at hdata
      · rw [hunknown] at hdata
        simp at hdata
  | inside hmark =>
      refine Barred.of_known hs (fun hlead => ?_) fun hunknown => ?_
      · rw [hlead] at hmark
        cases hmark
      · rw [hmark] at hunknown
        cases hunknown

/-- A byte of which nothing is known is barred by whatever keeps decoding from going on
    there. -/
theorem Obstacle.barred {a : Address} {code : DiagnosticCode} {message : String}
    (h : Obstacle e s a code message) (hs : Indexed e.image e.context s)
    (hunknown : (s.bytes.get a).kind = .unknown) : Barred e.image e.context s a := by
  cases h with
  | outside hw =>
      refine Barred.of_undecodable hs fun i hi => ?_
      rcases Image.instructionAt?_eq_some_iff.mp hi with ⟨code, hcode, -⟩
      rw [hw] at hcode
      cases hcode
  | undecodable code cause hw hd =>
      refine Barred.of_undecodable hs fun i hi => ?_
      rcases Image.instructionAt?_eq_some_iff.mp hi with ⟨code', hcode', hok⟩
      rw [hw, Option.some.injEq] at hcode'
      rw [← hcode', hd] at hok
      cases hok
  | overlap i hi hknown text htext =>
      -- The byte itself is no lead, so nothing is indexed there; another byte is known.
      refine ⟨hs.get?_eq_none fun hlead => ?_, fun j hj => ?_, fun j hj _ => ?_⟩
      · rw [hlead] at hunknown
        cases hunknown
      · rw [hi, Option.some.injEq] at hj
        rw [← hj]
        simpa only [Classical.not_forall, exists_prop] using hknown
      · rw [hi, Option.some.injEq] at hj
        rw [← hj]
        exact ⟨text, htext⟩

/-- A visit leaves a block at its target, or it has found the target barred. -/
theorem Visited.spent (hlaid : LaidOut e.image e.context s) (hv : Visited e s r s') :
    Spent e.image e.context s' r.target := by
  cases hv with
  | misdirected code what h =>
      exact Spent.congr (s := s) (Or.inr (h.barred hlaid.toIndexed)) rfl rfl rfl
  | known id h =>
      rcases hlaid.wellFormed.startingAt?_iff.mp h with ⟨b, hget, hstart⟩
      exact Or.inl ⟨id, b, hget, hstart⟩
  | cut id whole j last i hget hin hj hne hi hnext hlast straight =>
      refine Or.inl ⟨s.blocks.size, whole.tailFrom r.target, ?_, rfl⟩
      simp only [Session.record_stores]
      exact BlockStore.get?_cut_tail hget
  | stuck code message h hunknown =>
      exact Spent.congr (s := s) (Or.inr (h.barred hlaid.toIndexed hunknown)) rfl rfl rfl
  | decoded is i kind s1 fresh straight hlen hending =>
      refine Or.inl ⟨s1.blocks.size, Run.block r.target (is ++ [i]) kind, ?_, rfl⟩
      simp only [Session.close_stores, BlockStore.get?_push_self]

/-- Following a reference exhausts all that it records, and what has been recorded before
    stays exhausted. -/
theorem Followed.exhausted (hlaid : LaidOut e.image e.context s) (hf : Followed e s r s')
    (hs : ∀ r' ∈ s.references.toList, Exhausted e.image e.context s r')
    (hr : r' ∈ s'.references.toList) : Exhausted e.image e.context s' r' := by
  have hold : r' ∈ s.references.toList → Exhausted e.image e.context s' r' := by
    intro hmem
    refine ⟨(hs r' hmem).1, fun htarget => ?_⟩
    exact ((hs r' hmem).2 htarget).stays hlaid (hf.laidOut hlaid) (hf.kept hlaid) hf.grown
  have hprobe : r.target.isSomewhere → ¬ r.isProbe := by
    intro htarget
    simp only [Reference.isProbe, htarget, Bool.not_true, Bool.and_false, Bool.false_eq_true,
      not_false_eq_true]
  cases hf with
  | slot hprobe s' h =>
      -- Reading a slot queues references and records none.
      cases h with
      | refused => exact hold hr
      | accepted word hword hlimit hfree hin hlanding hself => exact hold hr
  | dynamic hprobe hnowhere =>
      rcases Session.mem_record_references _ hr with hmem | rfl
      · exact hold hmem
      · exact ⟨hprobe, fun htarget => absurd htarget hnowhere⟩
  | visited htarget s' hv =>
      have hspent : Spent e.image e.context (s'.record r) r.target := by
        refine (hv.spent hlaid).congr ?_ ?_ ?_ <;> simp only [Session.record_stores]
      rcases Session.mem_record_references _ hr with hmem | rfl
      · rcases hv.mem_references hmem with hmem | ⟨hkind, heq⟩
        · exact hold hmem
        · -- What a visit records leads to the target just visited, or nowhere.
          refine ⟨fun h => hkind ?_, fun hsome => ?_⟩
          · simp only [Reference.isProbe, Bool.and_eq_true, decide_eq_true_eq] at h
            exact h.1
          · rcases heq with heq | heq
            · rw [heq]
              exact hspent
            · rw [heq] at hsome
              exact absurd hsome (by decide)
      · exact ⟨hprobe htarget, fun _ => hspent⟩

end Steps

/-- A session that has one more reference in its log, and perhaps one more diagnostic.
    Nothing else has changed. -/
def Session.Repeats (s : Session) (r : Reference) (s' : Session) : Prop :=
  ∃ finding : Option Diagnostic, s' = { s with
    references := s.references.push r
    diagnostics := ⟨s.diagnostics.entries ++ finding.toArray⟩ }

namespace Session

variable (s : Session) {r : Reference}

theorem repeats_record (h : r.isAnchored) : s.Repeats r (s.record r) := by
  refine ⟨none, ?_⟩
  unfold record
  rw [if_pos h]
  simp

theorem repeats_report_record (h : r.isAnchored) (a : Address) (code : DiagnosticCode)
    (message : String) : s.Repeats r ((s.report a code message).record r) := by
  refine ⟨some ⟨a, code, message⟩, ?_⟩
  unfold record
  rw [if_pos h]
  simp [report, Diagnostics.report]

end Session

section Again

variable {e : Explorer} {s s' : Session} {r r' : Reference}

/-- No run can be taken over from a spent address. Its first instruction would start there, and
    all of it would be unknown. -/
theorem Spent.eq_nil_of_fresh {a : Address} {is : List Instruction}
    (hspent : Spent e.image e.context s a) (hlaid : LaidOut e.image e.context s)
    (fresh : Fresh e s a is) : is = [] := by
  cases is with
  | nil => rfl
  | cons j js =>
      exfalso
      rcases hspent with ⟨id, b, hget, hstart⟩ | hbarred
      · have hspans := Address.spans_self (a := a)
          (Run.bounds fresh.run (List.cons_ne_nil j js)).2.2
        have hfirst := Block.contains_start (hlaid.wellFormed.positive hget)
        rw [hstart] at hfirst
        exact hlaid.not_spans_of_fresh fresh hget hfirst hspans
      · rcases hbarred.taken j fresh.run.1 with ⟨b, hspan, hknown⟩
        exact hknown (fresh.unknown b ((Run.spans_cons_iff fresh.run.1).mpr (Or.inl hspan)))

/-- A visit of a spent target reports it once more or does nothing. -/
theorem Visited.eq_of_spent (hlaid : LaidOut e.image e.context s)
    (hspent : Spent e.image e.context s r.target) (hv : Visited e s r s') :
    s' = s ∨ ∃ code message, s' = s.report r.target code message := by
  cases hv with
  | misdirected code what h => exact Or.inr ⟨_, _, rfl⟩
  | known id h => exact Or.inl rfl
  | stuck code message h hunknown => exact Or.inr ⟨_, _, rfl⟩
  | cut id whole j last i hget hin hj hne hi hnext hlast straight =>
      -- A block that starts at the target would share its first byte with the one to be cut.
      exfalso
      rcases hspent with ⟨id', b, hget', hstart⟩ | hbarred
      · have hfirst := Block.contains_start (hlaid.wellFormed.positive hget')
        rw [hstart] at hfirst
        have hid := hlaid.wellFormed.disjoint hget' hget hfirst hin
        rw [hid, hget, Option.some.injEq] at hget'
        rw [← hget'] at hstart
        exact hne hstart
      · rw [hbarred.unindexed] at hj
        cases hj
  | decoded is i kind s1 fresh straight hlen hending =>
      exact absurd (hspent.eq_nil_of_fresh hlaid fresh) (by simp)

/-- An exhausted reference can be followed again. Decoding could only fail at the target itself,
    and what is there has been named when the target was found barred. -/
theorem Exhausted.exists_process_eq_ok (h : Exhausted e.image e.context s r)
    (hlaid : LaidOut e.image e.context s) : ∃ s', e.process r s = .ok s' := by
  cases hprocess : e.process r s with
  | ok s' => exact ⟨s', rfl⟩
  | error cause =>
      exfalso
      rcases process_eq_error hprocess with ⟨hunknown, is, i, hfresh, hunnamable⟩
      have htarget : r.target.isSomewhere := by
        by_contra hnowhere
        simp only [Explorer.process, Bool.eq_false_iff.mpr h.1, Bool.eq_false_iff.mpr hnowhere,
          Bool.not_false, Bool.false_eq_true, if_false, if_true, reduceCtorEq] at hprocess
      -- No instruction can be taken over from the target, so decoding failed at the target itself.
      have hnil := (h.2 htarget).eq_nil_of_fresh hlaid hfresh
      subst hnil
      rcases h.2 htarget with ⟨id, b, hget, hstart⟩ | hbarred
      · -- Where a block starts, the byte is code.
        have hfirst := Block.contains_start (hlaid.wellFormed.positive hget)
        rw [hstart] at hfirst
        rw [hlaid.kind_eq_code_iff.mpr ⟨id, b, hget, hfirst⟩] at hunknown
        cases hunknown
      · rcases hbarred.named i hunnamable.decoded hunknown with ⟨text, htext⟩
        rw [hunnamable.text_eq] at htext
        cases htext

/-- Following an exhausted reference only records it, and perhaps repeats a report. -/
theorem process_repeats (hlaid : LaidOut e.image e.context s)
    (hlimit : 1 ≤ e.limits.blockInstructions) (hr : r.isAnchored)
    (hexhausted : Exhausted e.image e.context s r) :
    ∃ s', e.process r s = .ok s' ∧ s.Repeats r s' := by
  rcases hexhausted.exists_process_eq_ok hlaid with ⟨s', hprocess⟩
  refine ⟨s', hprocess, ?_⟩
  have hf := process_followed hlaid hlimit hprocess
  cases hf with
  | slot hprobe s' h => exact absurd hprobe hexhausted.1
  | dynamic hprobe htarget => exact s.repeats_report_record hr _ _ _
  | visited htarget s' hv =>
      rcases hv.eq_of_spent hlaid (hexhausted.2 htarget) with rfl | ⟨code, message, rfl⟩
      · exact s'.repeats_record hr
      · exact s.repeats_report_record hr _ _ _

/-- A reference that is pending or recorded stays so while another is followed, and when
    it is followed itself, it is recorded. Slots to be read are the exception. -/
theorem Followed.mem_mentions (hlaid : LaidOut e.image e.context s) (hf : Followed e s r s')
    (hprobe : ¬ r'.isProbe) (hanchored : r'.isAnchored) (h : r' ∈ r :: s.mentions) :
    r' ∈ s'.mentions := by
  -- Recording a reference moves it from the queue to the log, if it has an end.
  have hrecord : ∀ {s' : Session}, (∀ x, x ∈ s.mentions → x ∈ s'.mentions) →
      r' ∈ (s'.record r).mentions := by
    intro s' hmentions
    by_cases hr : r.isAnchored
    · refine (s'.mentions_record hr).mem_iff.mpr ?_
      rcases List.mem_cons.mp h with rfl | h
      · exact List.mem_cons_self
      · exact List.mem_cons_of_mem r (hmentions r' h)
    · rw [s'.mentions_record_nowhere hr]
      rcases List.mem_cons.mp h with rfl | h
      · exact absurd hanchored hr
      · exact hmentions r' h
  cases hf with
  | slot hisprobe s' hread =>
      have hmem : r' ∈ s.mentions := by
        rcases List.mem_cons.mp h with rfl | h
        · exact absurd hisprobe hprobe
        · exact h
      cases hread with
      | refused => exact hmem
      | accepted word hword hlimit hfree hin hlanding hself =>
          refine (Session.mentions_enqueue _ _).mem_iff.mpr (List.mem_cons_of_mem _ ?_)
          exact (Session.mentions_enqueue _ _).mem_iff.mpr (List.mem_cons_of_mem _ hmem)
  | dynamic hisprobe htarget => exact hrecord fun x hx => hx
  | visited htarget s' hv =>
      rcases hv.accounts hlaid with ⟨new, hmentions, -, -⟩
      exact hrecord fun x hx => hmentions.mem_iff.mpr (List.mem_append_right new hx)

end Again

section Sessions

variable {image : Image} {context : DecodeContext} {s : Session}

/-- All recorded references of an explored session are exhausted. -/
theorem Explored.exhausted
    (h : Explored image context (fun limits => 1 ≤ limits.blockInstructions) s) :
    ∀ r ∈ s.references.toList, Exhausted image context s r := by
  refine (h.keeps_laidOut
    (P := fun s => ∀ r ∈ s.references.toList, Exhausted image context s r)
    (fun _ hl => hl) ?_ ?_ ?_).2
  · intro r hr
    cases hr
  · intro s entry kind hs _ r hr
    exact (hs r hr).congr rfl rfl rfl
  · intro s limits r queue s' hs _ _ hlaid hf r' hr'
    exact hf.exhausted hlaid (fun q hq => (hs q hq).congr rfl rfl rfl) hr'

/-- A run that finishes has recorded what was pending, slots to be read apart. -/
theorem Explorer.run_mem_references {e : Explorer} {cancelled : Nat → Bool} {s' : Session}
    {r : Reference} (hlaid : LaidOut e.image e.context s)
    (hlimit : 1 ≤ e.limits.blockInstructions) (hprobe : ¬ r.isProbe) (hanchored : r.isAnchored)
    (hmem : r ∈ s.mentions) (hrun : e.run cancelled s = .ok (s', .ok ())) :
    r ∈ s'.references.toList := by
  have hkeeps := run_keeps_laidOut (P := fun s => r ∈ s.mentions) hlimit
    (fun s q queue s' hs hpop hpopped hf => hf.mem_mentions hpopped hprobe hanchored
      ((s.mentions_pop hpop).mem_iff.mp hs)) hlaid hmem hrun
  -- Nothing is pending in the end, so what is mentioned is recorded.
  have hempty := Explorer.run_pending hlimit hrun
  rw [Session.mentions, hempty, List.append_nil] at hkeeps
  exact hkeeps.2

/-- Exploring an entry point that is exhausted, with nothing else pending, follows one
    reference and leaves all but the log and the diagnostics as they were. -/
theorem Explorer.analyze_repeats {e : Explorer} {again : Nat → Bool} {entry : Address}
    {kind : ReferenceKind} (hlaid : LaidOut e.image e.context s)
    (hlimit : 1 ≤ e.limits.blockInstructions) (hentry : entry.isSomewhere)
    (hempty : s.queue.pending = []) (hgo : again 0 = false)
    (hexhausted : Exhausted e.image e.context s ⟨kind, .nowhere, entry, .nowhere⟩) :
    ∃ queue s', e.analyze again entry kind s = .ok (s', .ok ()) ∧ queue.pending = []
      ∧ ({ s with queue := queue } : Session).Repeats ⟨kind, .nowhere, entry, .nowhere⟩ s' := by
  generalize hr : (⟨kind, .nowhere, entry, .nowhere⟩ : Reference) = r at hexhausted ⊢
  have hanchored : r.isAnchored := by
    rw [← hr, Reference.isAnchored, hentry, Bool.or_true]
  -- The reference is all that is pending once it has been queued.
  have hpending : (s.enqueue r).queue.pending = [r] := by
    have hperm := s.queue.pending_push_perm r
    rw [hempty] at hperm
    exact List.perm_singleton.mp hperm
  unfold analyze
  rw [if_pos hentry, hr, run]
  cases hpop : (s.enqueue r).queue.pop? with
  | none =>
      rw [ReferenceQueue.pop?_eq_none hpop] at hpending
      cases hpending
  | some next =>
      rcases next with ⟨q, queue⟩
      rw [ReferenceQueue.pop?_eq_some hpop, List.cons.injEq] at hpending
      rcases hpending with ⟨rfl, hqueue⟩
      rcases process_repeats (s := { s with queue := queue }) (hlaid.congr rfl rfl rfl) hlimit
        hanchored (hexhausted.congr rfl rfl rfl)
        with ⟨s', hprocess, hrepeats⟩
      refine ⟨queue, s', ?_, hqueue, hrepeats⟩
      have hbound : e.bound (s.enqueue q) = (2 * e.image.byteCount) + 1 := by
        rw [bound, Session.pending_enqueue, Session.pending, ReferenceQueue.size, hempty,
          List.length_nil]
        omega
      rw [hbound, drain_succ hpop (by rw [hgo]; decide),
        show ({ s.enqueue q with queue := queue } : Session) = { s with queue := queue } from rfl,
        hprocess]
      -- Following the reference has not touched the queue.
      rcases hrepeats with ⟨finding, rfl⟩
      exact drain_of_pending_eq_nil hqueue

/-- In an explored session, following a recorded reference again only records it again, and perhaps
    repeats a report. So exploring from an entry point a second time discovers nothing: it follows
    that one reference and is done. A reference that has been followed has left its target spent,
    and spent targets stay so. -/
theorem Explored.repeats {limits : Limits}
    (h : Explored image context (fun limits => 1 ≤ limits.blockInstructions) s)
    (hlimit : 1 ≤ limits.blockInstructions) :
    (∀ r ∈ s.references.toList,
        ∃ s', Explorer.process ⟨image, context, limits⟩ r s = .ok s' ∧ s.Repeats r s')
      ∧ ∀ cancelled again entry kind s₁, again 0 = false →
        Explorer.analyze ⟨image, context, limits⟩ cancelled entry kind s = .ok (s₁, .ok ()) →
        s₁.queue.pending = []
          ∧ ∃ queue s₂, Explorer.analyze ⟨image, context, limits⟩ again entry kind s₁
              = .ok (s₂, .ok ())
            ∧ queue.pending = []
            ∧ ({ s₁ with queue := queue } : Session).Repeats
              ⟨kind, .nowhere, entry, .nowhere⟩ s₂ := by
  constructor
  · intro r hr
    refine process_repeats (e := ⟨image, context, limits⟩) h.laidOut hlimit ?_ (h.exhausted r hr)
    exact h.unrefused.anchored r (List.mem_append_left _ hr)
  · intro cancelled again entry kind s₁ hgo hfirst
    have hexplored := h.analyze limits hlimit cancelled entry kind hfirst
    unfold Explorer.analyze at hfirst
    by_cases hentry : entry.isSomewhere
    · rw [if_pos hentry] at hfirst
      have hempty := Explorer.run_pending hlimit hfirst
      -- The first exploration has recorded the entry point, so it is exhausted.
      have hqueued : LaidOut image context (s.enqueue ⟨kind, .nowhere, entry, .nowhere⟩) :=
        h.laidOut.congr rfl rfl rfl
      have hrecorded : (⟨kind, .nowhere, entry, .nowhere⟩ : Reference) ∈ s₁.references.toList := by
        refine Explorer.run_mem_references (e := ⟨image, context, limits⟩) hqueued hlimit ?_ ?_
          ((s.mentions_enqueue _).mem_iff.mpr List.mem_cons_self) hfirst
        · simp only [Reference.isProbe, hentry, Bool.not_true, Bool.and_false,
            Bool.false_eq_true, not_false_eq_true]
        · rw [Reference.isAnchored, hentry, Bool.or_true]
      exact ⟨hempty, Explorer.analyze_repeats hexplored.laidOut hlimit hentry hempty hgo
        (hexplored.exhausted _ hrecorded)⟩
    · rw [if_neg hentry] at hfirst
      cases hfirst

end Sessions

/-- A branch into the middle of the instruction behind it. The branch is followed first, so
    that instruction is never taken over. -/
def crossing : Image := Image.ofBytes #[0x74, 0x01, 0xB8, 0x90, 0x90, 0xEB, 0xFC] 0

/-- Nothing is known of the byte behind the branch, and still nothing is decoded there when
    the reference to it is followed again. -/
theorem repeats_crossing :
    let e : Explorer := ⟨crossing, {}, {}⟩
    let r : Reference := ⟨.fallThrough, ⟨0, 0⟩, ⟨0, 2⟩, .nowhere⟩
    ∃ s, e.analyze (fun _ => false) ⟨0, 0⟩ .entry .fresh = .ok (s, .ok ())
      ∧ s.bytes.get ⟨0, 2⟩ = ⟨.unknown, false⟩ ∧ r ∈ s.references.toList
      ∧ (∃ s', e.process r s = .ok s' ∧ s.Repeats r s')
      ∧ ∃ queue s', e.analyze (fun _ => false) ⟨0, 0⟩ .entry s = .ok (s', .ok ())
        ∧ ({ s with queue := queue } : Session).Repeats
          ⟨.entry, .nowhere, ⟨0, 0⟩, .nowhere⟩ s' := by
  intro e r
  have hlimit : 1 ≤ e.limits.blockInstructions := by decide
  have hfound : (e.analyze (fun _ => false) ⟨0, 0⟩ .entry .fresh).toOption.any (fun x => x.2.isOk
      && decide (x.1.bytes.get ⟨0, 2⟩ = ⟨.unknown, false⟩ ∧ r ∈ x.1.references.toList)) = true := by
    decide +kernel
  rcases exists_session_of_any (fun s => decide (s.bytes.get ⟨0, 2⟩ = ⟨.unknown, false⟩
    ∧ r ∈ s.references.toList)) hfound with ⟨s, hfirst, hany⟩
  rcases of_decide_eq_true hany with ⟨hunknown, hmem⟩
  have hexplored : Explored crossing {} (fun limits => 1 ≤ limits.blockInstructions) s :=
    Explored.fresh.analyze {} hlimit _ _ _ hfirst
  refine ⟨s, hfirst, hunknown, hmem, (hexplored.repeats hlimit).1 r hmem, ?_⟩
  rcases (Explored.fresh.repeats hlimit).2 _ (fun _ => false) ⟨0, 0⟩ .entry s rfl hfirst
    with ⟨-, queue, s', hagain, -, hrepeats⟩
  exact ⟨queue, s', hagain, hrepeats⟩

end Disasm86
