import Disasm86.Analysis
import Disasm86.Proofs.FlowEdges
import Disasm86.Proofs.Lines
import Disasm86.Proofs.Settled

/-!
# Who Finds What

Exploring, building the graph and detecting procedures write to the same list of
diagnostics, one after the other. Nobody withdraws a diagnostic, and each of them has codes
of its own, so the diagnostics of an analysis tell by their codes where they come from.

`Diagnostics.Extends` is the relation that says what a part of the work has added, for any
property of diagnostics. It is closed under doing one thing after the other, so a property has
to be shown for single reports only. Two properties matter. For the sake of counting, only the
code is looked at, and `Diagnostics.Adds` leaves the message open. `Diagnostics.Finds` says what
is true of the reports of this program: each has one of the codes, and its message stays on one
line, which is what makes the lines of a listing come out as they were put together.

What building the graph reports is told in full: one message for each reference that should
be an edge and is none, in the order of the log. `missing?` is that message, as `edge?` is
the edge.

## Main definitions

* `Diagnostics.Extends`: What has been added to the diagnostics has a property.
* `Diagnostics.Adds`, `Diagnostics.Finds`: It has listed codes, and messages of one line.
* `DiagnosticCode.ofExploring`, `DiagnosticCode.ofDecoding`: The findings of exploring, and those
  of them that come up while a block is decoded.
* `FlowGraph.missing?`: The message about a reference that has no block at one end.

## Theorems

* `Diagnostics.Adds.filter_code`: Diagnostics with other codes are as before.
* `Ending.finds`: What is found before a block is closed.
* `Explored.finds`: An explored session has findings of exploring only.
* `FlowGraph.build_diagnostics`, `FlowGraph.build_finds`: What building the graph reports.
* `ProcedureTable.detect_finds`: Detecting procedures warns about calls.
-/

namespace Disasm86

namespace Diagnostics

/-- Diagnostics have been added behind the others, and each of them has the property. Nothing is
    ever withdrawn or moved, so the work of several parts can be put together. -/
def Extends (p : Diagnostic → Prop) (ds ds' : Diagnostics) : Prop :=
  ∃ new, ds'.toList = ds.toList ++ new ∧ ∀ d ∈ new, p d

/-- All that has been added has one of the codes. -/
def Adds (codes : List DiagnosticCode) : Diagnostics → Diagnostics → Prop :=
  Extends fun d => d.code ∈ codes

/-- All that has been added has one of the codes and a message of one line. -/
def Finds (codes : List DiagnosticCode) : Diagnostics → Diagnostics → Prop :=
  Extends fun d => d.code ∈ codes ∧ OneLine d.message

variable {p q : Diagnostic → Prop} {codes codes' : List DiagnosticCode} {ds ds' ds'' : Diagnostics}
  {code : DiagnosticCode} {d : Diagnostic} {message : String}

/-- A report goes behind all others. -/
theorem toList_report (ds : Diagnostics) (a : Address) (code : DiagnosticCode)
    (message : String) : (ds.report a code message).toList = ds.toList ++ [⟨a, code, message⟩] := by
  simp [report, toList]

theorem Extends.refl (p : Diagnostic → Prop) (ds : Diagnostics) : Extends p ds ds :=
  ⟨[], by simp, by simp⟩

/-- One part of the work after the other. -/
theorem Extends.trans (h : Extends p ds ds') (h' : Extends p ds' ds'') : Extends p ds ds'' := by
  rcases h with ⟨new, hnew, hp⟩
  rcases h' with ⟨new', hnew', hp'⟩
  refine ⟨new ++ new', by rw [hnew', hnew, List.append_assoc], fun d hd => ?_⟩
  rcases List.mem_append.mp hd with hd | hd
  · exact hp d hd
  · exact hp' d hd

/-- A weaker property is enough. -/
theorem Extends.mono (h : Extends p ds ds') (hpq : ∀ d, p d → q d) : Extends q ds ds' := by
  rcases h with ⟨new, hnew, hp⟩
  exact ⟨new, hnew, fun d hd => hpq d (hp d hd)⟩

/-- A single report. All that is ever added is added by reports. -/
theorem extends_report (ds : Diagnostics) {a : Address} (h : p ⟨a, code, message⟩) :
    Extends p ds (ds.report a code message) := by
  refine ⟨[⟨a, code, message⟩], ds.toList_report a code message, fun d hd => ?_⟩
  rw [List.mem_singleton.mp hd]
  exact h

/-- Nothing is withdrawn. -/
theorem Extends.mem (h : Extends p ds ds') (hd : d ∈ ds.toList) : d ∈ ds'.toList := by
  rcases h with ⟨new, hnew, -⟩
  rw [hnew]
  exact List.mem_append_left new hd

/-- What was true of all diagnostics before is still true of all. -/
theorem Extends.forall_mem (h : Extends p ds ds') (hds : ∀ d ∈ ds.toList, p d) :
    ∀ d ∈ ds'.toList, p d := by
  rcases h with ⟨new, hnew, hp⟩
  intro d hd
  rw [hnew] at hd
  rcases List.mem_append.mp hd with hd | hd
  · exact hds d hd
  · exact hp d hd

theorem Adds.refl (codes : List DiagnosticCode) (ds : Diagnostics) : Adds codes ds ds :=
  Extends.refl _ ds

theorem Adds.trans (h : Adds codes ds ds') (h' : Adds codes ds' ds'') : Adds codes ds ds'' :=
  Extends.trans h h'

theorem Adds.mono (h : Adds codes ds ds') (hsub : ∀ code ∈ codes, code ∈ codes') :
    Adds codes' ds ds' :=
  Extends.mono h fun d hd => hsub d.code hd

theorem adds_report (ds : Diagnostics) (a : Address) (message : String) (h : code ∈ codes) :
    Adds codes ds (ds.report a code message) :=
  extends_report ds h

/-- Diagnostics with other codes are as before. -/
theorem Adds.filter_code (h : Adds codes ds ds') (hcode : code ∉ codes) :
    (ds'.toList.filter fun d => d.code = code) = ds.toList.filter fun d => d.code = code := by
  rcases h with ⟨new, hnew, hcodes⟩
  have hnone : (new.filter fun d => d.code = code) = [] := by
    refine List.filter_eq_nil_iff.mpr fun d hd heq => hcode ?_
    rw [← of_decide_eq_true heq]
    exact hcodes d hd
  rw [hnew, List.filter_append, hnone, List.append_nil]

theorem Finds.refl (codes : List DiagnosticCode) (ds : Diagnostics) : Finds codes ds ds :=
  Extends.refl _ ds

theorem Finds.trans (h : Finds codes ds ds') (h' : Finds codes ds' ds'') : Finds codes ds ds'' :=
  Extends.trans h h'

theorem Finds.mono (h : Finds codes ds ds') (hsub : ∀ code ∈ codes, code ∈ codes') :
    Finds codes' ds ds' :=
  Extends.mono h fun d hd => ⟨hsub d.code hd.1, hd.2⟩

theorem finds_report (ds : Diagnostics) (a : Address) (hcode : code ∈ codes)
    (hline : OneLine message) : Finds codes ds (ds.report a code message) :=
  extends_report ds ⟨hcode, hline⟩

/-- By the codes alone. -/
theorem Finds.adds (h : Finds codes ds ds') : Adds codes ds ds' :=
  Extends.mono h fun _ hd => hd.1

/-- Work that keeps its messages on one line keeps all of them there. -/
theorem Finds.oneLine (h : Finds codes ds ds') (hds : ∀ d ∈ ds.toList, OneLine d.message) :
    ∀ d ∈ ds'.toList, OneLine d.message :=
  (Extends.mono h fun _ hd => hd.2).forall_mem hds

end Diagnostics

/-- The findings of exploring. Building the graph and detecting procedures have a code of their own
    each, so what they add can be told apart by the codes alone. -/
def DiagnosticCode.ofExploring : List DiagnosticCode :=
  [.ranIntoData, .ranIntoCode, .overlappingInstruction, .addressWrapped, .outOfImage,
   .brokenBasicBlock, .invalidInstruction, .dynamicTarget]

/-- What is found before a block is closed, while its instructions are decoded. -/
def DiagnosticCode.ofDecoding : List DiagnosticCode :=
  [.addressWrapped, .outOfImage, .invalidInstruction, .overlappingInstruction, .ranIntoData]

section Exploring

open Diagnostics DiagnosticCode

variable {e : Explorer} {s s' : Session} {r : Reference} {code : DiagnosticCode} {message : String}

/-- The report about a target that wraps around the segment is the only one that the references
    of an instruction lead to. -/
theorem of_reported_mem_emission {a location : Address} {i : Instruction} {t : Transfer}
    (h : Note.reported location code message ∈ emission a i t) :
    code = .addressWrapped ∧ OneLine message := by
  unfold emission at h
  rcases List.mem_append.mp h with h | h
  · split at h
    · rcases List.mem_append.mp h with h | h
      · simp at h
      · unfold targetEmission at h
        split at h
        · simp at h
        · split at h
          · simp at h
          · simp only [List.mem_cons, Note.reported.injEq, reduceCtorEq, List.not_mem_nil,
              or_false] at h
            rcases h with ⟨-, rfl, rfl⟩
            refine ⟨rfl, ?_⟩
            -- The offset is quoted as a literal, between two texts.
            simp only [oneLine_append_iff, Hex.oneLine_literal, and_true]
            exact ⟨by decide +kernel, by decide +kernel⟩
    · simp at h
  · split at h <;> simp at h

/-- Emitting the references of an instruction finds at most that a target wraps. -/
theorem Session.emit_finds (s : Session) (a : Address) (i : Instruction) (t : Transfer) :
    Finds ofDecoding s.diagnostics (s.emit a i t).diagnostics := by
  have hreports : ∀ location code message, Note.reported location code message ∈ emission a i t →
      code ∈ ofDecoding ∧ OneLine message := by
    intro location code message hmem
    rcases of_reported_mem_emission hmem with ⟨rfl, hline⟩
    exact ⟨by decide, hline⟩
  rw [emit_eq_foldl]
  generalize emission a i t = notes at hreports ⊢
  -- Note by note; of the three kinds of note, one is a report.
  induction notes generalizing s with
  | nil => exact Finds.refl _ _
  | cons n notes ih =>
      have hnote : Finds ofDecoding s.diagnostics (s.note n).diagnostics := by
        cases n with
        | queued r => exact Finds.refl _ _
        | recorded r =>
            simp only [Session.note, Session.record_stores]
            exact Finds.refl _ _
        | reported location code message =>
            rcases hreports location code message List.mem_cons_self with ⟨hcode, hline⟩
            exact finds_report _ _ hcode hline
      exact hnote.trans (ih (s.note n) fun location code message hmem =>
        hreports location code message (List.mem_cons_of_mem n hmem))

/-- What is reported where decoding stops stays on one line, even if it quotes an instruction. -/
theorem StopReport.oneLine (h : StopReport code message) : OneLine message := by
  cases h with
  | outside => decide +kernel
  | undecodable cause => exact cause.oneLine_message
  | overlap i text htext =>
      exact oneLine_append_iff.mpr ⟨Instruction.oneLine_of_text htext, by decide +kernel⟩
  | data => decide +kernel

/-- What is found while the instructions of a block are decoded. -/
theorem Ending.finds {start : Address} {is : List Instruction} {i : Instruction}
    {kind : BlockKind} (h : Ending s start is i kind s') :
    Finds ofDecoding s.diagnostics s'.diagnostics := by
  have htake : (s.takeRun start (is ++ [i])).diagnostics = s.diagnostics := by
    rw [Session.takeRun_eq]
  rw [← htake]
  cases h with
  | ranOn ht => exact Finds.refl _ _
  | brokeOff ht code message hreport =>
      refine finds_report _ _ ?_ hreport.oneLine
      cases hreport <;> decide
  | transferred t ht => exact Session.emit_finds _ _ _ _

/-- What is found when a block is closed. -/
theorem Session.close_finds (s : Session) (start : Address) (is : List Instruction)
    (kind : BlockKind) :
    Finds [.brokenBasicBlock] s.diagnostics (s.close start is kind).diagnostics := by
  unfold close
  split
  · refine finds_report _ _ (by decide) ?_
    exact oneLine_append_iff.mpr ⟨by decide +kernel, Address.oneLine_text _⟩
  · exact Finds.refl _ _

/-- What is said of a target is one of three texts. -/
theorem Misdirected.oneLine {a : Address} (h : Misdirected e s a code message) :
    OneLine message := by
  cases h <;> decide +kernel

/-- A visit reports its target, or what stopped it, or that its block is broken. -/
theorem Visited.finds (hv : Visited e s r s') :
    Finds ofExploring s.diagnostics s'.diagnostics := by
  cases hv with
  | misdirected code what h =>
      refine finds_report _ _ ?_ ?_
      · cases h <;> decide
      · -- The report says which kind of reference led there, and where from.
        simp only [oneLine_append_iff, ReferenceKind.oneLine_name, Address.oneLine_text, h.oneLine,
          and_true, true_and]
        exact ⟨by decide, by decide⟩
  | known id h => exact Finds.refl _ _
  | cut id whole j last i hget hin hj hne hi hnext hlast straight =>
      simp only [Session.record_stores]
      exact Finds.refl _ _
  | stuck code message h =>
      refine finds_report _ _ ?_ h.stopReport.oneLine
      cases h <;> decide
  | decoded is i kind s' fresh straight hlen hending =>
      exact (hending.finds.mono (by decide)).trans ((s'.close_finds _ _ _).mono (by decide))

/-- The step lemma: following a reference adds findings of exploring only. -/
theorem Followed.finds (hf : Followed e s r s') :
    Finds ofExploring s.diagnostics s'.diagnostics := by
  cases hf with
  | slot hprobe s' h =>
      -- A slot is read without a word about it.
      cases h with
      | refused => exact Finds.refl _ _
      | accepted word hword hlimit hfree hin hlanding hself => exact Finds.refl _ _
  | dynamic hprobe htarget =>
      simp only [Session.record_stores]
      refine finds_report _ _ (by decide) ?_
      exact oneLine_append_iff.mpr ⟨ReferenceKind.oneLine_name _, by decide +kernel⟩
  | visited htarget s' hv =>
      simp only [Session.record_stores]
      exact hv.finds

/-- The run lemma: an explored session has findings of exploring only. -/
theorem Explored.finds {image : Image} {context : DecodeContext}
    (h : Explored image context (fun limits => 1 ≤ limits.blockInstructions) s) :
    Finds ofExploring .empty s.diagnostics := by
  refine (h.keeps_laidOut (P := fun s => Finds ofExploring .empty s.diagnostics)
    (fun _ hl => hl) (Finds.refl _ _) ?_ ?_).2
  -- Queueing an entry point reports nothing.
  · intro s entry kind hs _
    exact hs
  · intro s limits r queue s' hs _ _ _ hf
    exact hs.trans hf.finds

end Exploring

namespace FlowGraph

/-- The message about a reference that should be an edge and has no block at one end. -/
def missing? (blocks : BlockStore) (r : Reference) : Option Diagnostic :=
  if isFlow r then
    match blocks.find? r.source, blocks.find? r.target with
    | some _, some _ => none
    | none, _ => some ⟨r.source, .unresolvedTarget, missingMessage r r.source⟩
    | some _, none => some ⟨r.target, .unresolvedTarget, missingMessage r r.target⟩
  else none

/-- What is reported about one reference goes behind all that was reported before. -/
theorem addReference_diagnostics (blocks : BlockStore) (state : FlowGraph × Diagnostics)
    (r : Reference) : (addReference blocks state r).2.toList
      = state.2.toList ++ (missing? blocks r).toList := by
  unfold addReference missing?
  by_cases hflow : isFlow r
  · rw [if_pos hflow, if_pos hflow]
    cases blocks.find? r.source with
    | none => exact Diagnostics.toList_report _ _ _ _
    | some source =>
        cases blocks.find? r.target with
        | none => exact Diagnostics.toList_report _ _ _ _
        | some target => simp
  · rw [if_neg hflow, if_neg hflow]
    simp

/-- Building the graph reports the references that have no block at one end, in the order of
    the log. -/
theorem build_diagnostics (blocks : BlockStore) (log : ReferenceLog) (ds : Diagnostics) :
    (build blocks log ds).2.toList = ds.toList ++ log.toList.filterMap (missing? blocks) := by
  have hfold : ∀ (refs : List Reference) (state : FlowGraph × Diagnostics),
      (refs.foldl (addReference blocks) state).2.toList
        = state.2.toList ++ refs.filterMap (missing? blocks) := by
    intro refs
    induction refs with
    | nil => simp
    | cons r rest ih =>
        intro state
        rw [List.foldl_cons, ih, addReference_diagnostics, List.append_assoc]
        cases hr : missing? blocks r <;> simp [hr]
  exact hfold log.toList (empty, ds)

/-- Which end has no block does not matter to the code, and either message is on one line. -/
theorem build_finds (blocks : BlockStore) (log : ReferenceLog) (ds : Diagnostics) :
    Diagnostics.Finds [.unresolvedTarget] ds (build blocks log ds).2 := by
  refine ⟨_, build_diagnostics blocks log ds, fun d hd => ?_⟩
  rcases List.mem_filterMap.mp hd with ⟨r, -, hr⟩
  -- The message quotes addresses and the kind of the reference.
  have hline : ∀ a, OneLine (missingMessage r a) := by
    intro a
    unfold missingMessage
    simp only [oneLine_append_iff, Address.oneLine_text, ReferenceKind.oneLine_name, and_true]
    decide +kernel
  unfold missing? at hr
  split at hr
  · split at hr
    · cases hr
    · rw [← Option.some.inj hr]
      exact ⟨List.mem_cons_self, hline _⟩
    · rw [← Option.some.inj hr]
      exact ⟨List.mem_cons_self, hline _⟩
  · cases hr

end FlowGraph

namespace ProcedureTable

open Diagnostics

variable (blocks : BlockStore) (code : CodeIndex) (g : FlowGraph)

/-- A new procedure is warned about if it does not return in exactly one way. -/
theorem checkReturns_finds (p : Procedure) (ds : Diagnostics) :
    Finds [.inconsistentCall] ds (checkReturns p ds) := by
  unfold checkReturns
  split
  · exact finds_report _ _ List.mem_cons_self (by decide +kernel)
  · exact Finds.refl _ _
  · refine finds_report _ _ List.mem_cons_self ?_
    simp only [oneLine_append_iff, Returns.oneLine_text, and_true]
    exact ⟨by decide +kernel, by decide +kernel⟩

/-- A call is warned about if the procedure does not come back in kind. -/
theorem checkCall_finds (r : Reference) (p : Procedure) (ds : Diagnostics) :
    Finds [.inconsistentCall] ds (checkCall r p ds) := by
  unfold checkCall
  split
  · refine finds_report _ _ List.mem_cons_self ?_
    simp only [oneLine_append_iff, ReferenceKind.oneLine_name, Address.oneLine_text,
      Returns.oneLine_text, and_true, true_and]
    exact ⟨by decide, by decide +kernel⟩
  · exact Finds.refl _ _

/-- A procedure that is there already is not warned about again. -/
theorem findOrCreate_finds (entry : Address) (state : ProcedureTable × Diagnostics) :
    Finds [.inconsistentCall] state.2 (findOrCreate blocks code g entry state).1.2 := by
  unfold findOrCreate
  split
  · exact Finds.refl _ _
  · split
    · exact Finds.refl _ _
    · exact checkReturns_finds _ _

/-- The step lemma: what one reference leads to. -/
theorem addReference_finds (state : ProcedureTable × Diagnostics) (r : Reference) :
    Finds [.inconsistentCall] state.2 (addReference blocks code g state r).2 := by
  have hfound := findOrCreate_finds blocks code g r.target state
  unfold addReference
  split
  · -- The procedure is made first, and then the call is checked against it.
    generalize findOrCreate blocks code g r.target state = found at hfound ⊢
    rcases found with ⟨state', none | p⟩
    · exact hfound
    · simp only []
      split
      · exact hfound.trans (checkCall_finds r p state'.2)
      · exact hfound
  · exact Finds.refl _ _

/-- Detecting procedures adds warnings about calls to the diagnostics, and nothing else. -/
theorem detect_finds (log : ReferenceLog) (ds : Diagnostics) :
    Finds [.inconsistentCall] ds (detect blocks log code g ds).2 := by
  have hfold : ∀ (refs : List Reference) (state : ProcedureTable × Diagnostics),
      Finds [.inconsistentCall] state.2 (refs.foldl (addReference blocks code g) state).2 := by
    intro refs
    induction refs with
    | nil => exact fun state => Finds.refl _ _
    | cons r rest ih =>
        exact fun state => (addReference_finds blocks code g state r).trans (ih _)
  exact hfold log.toList (empty, ds)

end ProcedureTable

end Disasm86
