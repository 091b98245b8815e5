import Disasm86.Analysis
import Disasm86.Proofs.StaticFlow
import Disasm86.Proofs.Tiling
import Disasm86.Proofs.Workload

/-!
# Accounting for References

The recorded references of a finished analysis are the static flow of its instructions,
each as often as it should be.

References wait in the queue before they are recorded, and cutting a block makes new
ones out of turn, so there is no moment at which the log alone is right. What can be
kept is the sum. A session mentions a reference if it is recorded or pending, and the
books balance if every reference is mentioned as often as the index and the blocks say.
Following a reference moves it from the queue to the log, and whatever else happens is
listed in `Visited.accounts`: the references that come new are the ones by which the
debt grows. When the queue is empty, the log is all that is mentioned.

References through a jump table are left out of the count, because how many there are
depends on the contents of the table. That they come from an indexed instruction is
kept for them as well.

## Main definitions

* `Session.mentions`: All references of a session, recorded or pending.
* `Balanced`: Every reference is mentioned as often as it should be.

## Theorems

* `mentions_enqueue`, `mentions_record`: Small updates mention one reference more.
* `exists_filterMap_emission`: The references of an emission.
* `Visited.accounts`: The references that a visit adds are those by which the debt grows.
* `Followed.balanced`: Following a reference keeps the books balanced.
* `Explored.balanced`: The books of an explored session balance.
* `seedEntries_keeps`: What queueing entry points keeps.
* `exists_session_of_analyzeImage`: A finished analysis comes from a session without
  pending references.
* `analyzeImage_references`: The references of a finished analysis.
-/

namespace Disasm86

/-- The references that a session knows of, recorded or pending. -/
def Session.mentions (s : Session) : List Reference :=
  s.references.toList ++ s.queue.pending

/-- The reference that a note is about, if it is about one. -/
def Note.reference? : Note → Option Reference
  | .queued r => some r
  | .recorded r => some r
  | .reported _ _ _ => none

namespace Session

variable (s : Session) {s' : Session} {r : Reference}

theorem mentions_congr (hreferences : s'.references = s.references) (hqueue : s'.queue = s.queue) :
    s'.mentions = s.mentions := by
  unfold mentions
  rw [hreferences, hqueue]

/-- A reference that is queued is mentioned once more. Where it goes in the queue depends on its
    priority, so the lists agree up to their order. -/
theorem mentions_enqueue (r : Reference) : (s.enqueue r).mentions.Perm (r :: s.mentions) :=
  ((s.queue.pending_push_perm r).append_left s.references.toList).trans List.perm_middle

/-- Taken from the queue, a reference is in nobody's hands until it is recorded. -/
theorem mentions_pop {queue : ReferenceQueue} (hpop : s.queue.pop? = some (r, queue)) :
    s.mentions.Perm (r :: ({ s with queue := queue } : Session).mentions) := by
  unfold mentions
  rw [ReferenceQueue.pop?_eq_some hpop]
  exact List.perm_middle

/-- The log keeps a reference with a known end. -/
theorem mentions_record (h : r.isAnchored) :
    (s.record r).mentions.Perm (r :: s.mentions) := by
  unfold mentions record
  rw [if_pos h]
  simp only [ReferenceLog.push, ReferenceLog.toList, Array.toList_push, List.append_assoc,
    List.singleton_append]
  exact List.perm_middle

/-- A reference from nowhere to nowhere is dropped. -/
theorem mentions_record_nowhere (h : ¬ r.isAnchored) : (s.record r).mentions = s.mentions := by
  unfold mentions record
  rw [if_neg h]
  rfl

/-- A session that is told notes mentions their references. -/
theorem mentions_foldl_note (notes : List Note)
    (hnotes : ∀ r, Note.recorded r ∈ notes → r.source.isSomewhere) :
    (notes.foldl note s).mentions.Perm (notes.filterMap Note.reference? ++ s.mentions) := by
  induction notes generalizing s with
  | nil => exact List.Perm.refl _
  | cons n notes ih =>
      -- The first note is told first, so its reference is already there for the others.
      have hrest := ih (s.note n) fun r hr => hnotes r (List.mem_cons_of_mem n hr)
      have hadd : ∀ {r}, (s.note n).mentions.Perm (r :: s.mentions) →
          (notes.foldl note (s.note n)).mentions.Perm
            (r :: notes.filterMap Note.reference? ++ s.mentions) := fun hone =>
        (hrest.trans (hone.append_left _)).trans List.perm_middle
      cases n with
      | queued r => exact hadd (s.mentions_enqueue r)
      | recorded r =>
          refine hadd (s.mentions_record ?_)
          rw [Reference.isAnchored, hnotes r List.mem_cons_self, Bool.true_or]
      | reported location code message => exact hrest

/-- What is owed depends on the instructions and the blocks. -/
theorem owed_congr (hcode : s'.code = s.code) (hblocks : s'.blocks = s.blocks) (r : Reference) :
    s'.owed r = s.owed r := by
  unfold owed
  rw [hcode, hblocks]

end Session

section Emission

variable {a : Address} {i : Instruction} {t : Transfer} {r : Reference}

/-- There is one reference to the target, and a target that wraps is left out of it. -/
theorem filterMap_targetEmission : (targetEmission a i t).filterMap Note.reference?
    = [⟨.transfer t, a, i.staticTarget a, .nowhere⟩] := by
  unfold targetEmission Instruction.staticTarget
  cases i.branchTarget? a with
  | none => rfl
  | some target =>
      by_cases hreach : isReachableOffset target.offset
      · simp only [if_pos hreach, Option.filter_some, isReachableOffset_iff.mp hreach, and_self,
          decide_true, if_true, Option.getD_some]
        rfl
      · simp only [if_neg hreach, Option.filter_some, mt isReachableOffset_iff.mpr hreach,
          decide_false, Bool.false_eq_true, if_false, Option.getD_none]
        rfl

/-- The references of an emission: perhaps the first slot of a table, and then those of
    the transfer. -/
theorem exists_filterMap_emission (a : Address) (i : Instruction) (t : Transfer) :
    ∃ probes : List Reference, (∀ r ∈ probes, r.source = a ∧ r.kind = .indexedJump)
      ∧ (emission a i t).filterMap Note.reference? = probes ++ transferReferences a i t := by
  have hfall : (if t.fallsThrough then
      [Note.queued ⟨.fallThrough, a, i.next a, .nowhere⟩] else []).filterMap Note.reference?
        = if t.fallsThrough then [⟨.fallThrough, a, i.next a, .nowhere⟩] else [] := by
    by_cases hf : t.fallsThrough
    · rw [if_pos hf, if_pos hf]
      rfl
    · rw [if_neg hf, if_neg hf]
      rfl
  unfold emission transferReferences
  rw [List.filterMap_append, hfall]
  by_cases hnames : t.namesTarget
  · rw [if_pos hnames, if_pos hnames, List.filterMap_append, filterMap_targetEmission]
    -- What comes in front is the first slot, if the operand names one.
    refine ⟨_, ?_, by rw [List.append_assoc, List.singleton_append]⟩
    intro r hr
    cases hslot : jumpTableSlot? a i with
    | none =>
        rw [hslot] at hr
        cases hr
    | some slot =>
        rw [hslot] at hr
        rw [List.mem_singleton.mp hr]
        exact ⟨rfl, rfl⟩
  · rw [if_neg hnames, if_neg hnames]
    exact ⟨[], fun r hr => (by cases hr), rfl⟩

end Emission

section Steps

variable {e : Explorer} {s s' : Session} {r : Reference}

/-- Instructions are indexed at addresses of the image. -/
theorem Indexed.isSomewhere {image : Image} {context : DecodeContext} {a : Address}
    {i : Instruction} (h : Indexed image context s) (hi : s.code.get? a = some i) :
    a.isSomewhere :=
  Image.isSomewhere_of_contains
    ((Image.instructionAt?_eq_some (h.decoded hi)).2.2.2.1 a (h.spans_self hi))

/-- What is indexed stays so. -/
theorem Visited.get?_code (h : LaidOut e.image e.context s) (hv : Visited e s r s')
    {a : Address} {i : Instruction} (hi : s.code.get? a = some i) : s'.code.get? a = some i := by
  cases hv with
  | misdirected code what h' => exact hi
  | known id h' => exact hi
  | cut id whole j last i hget hin hj hne hi' hnext hlast straight =>
      simp only [Session.record_stores]
      exact hi
  | stuck code message h' => exact hi
  | decoded is i' kind s' fresh straight hlen hending =>
      simp only [Session.close_stores, hending.stores]
      exact h.get?_takeRun fresh hi

/-- Before a block is closed, the references of its last instruction are mentioned, and besides them
    only slots of a table. Whether the block runs on is part of the count, since then a straight
    instruction has a reference as well. -/
theorem Ending.accounts {start : Address} {is : List Instruction} {i : Instruction}
    {kind : BlockKind} (hlast : (Run.stop start is).isSomewhere)
    (h : Ending s start is i kind s') :
    ∃ new : List Reference, s'.mentions.Perm (new ++ s.mentions)
      ∧ (∀ r ∈ new, r.source = Run.stop start is)
      ∧ ∀ r, r.kind ≠ .indexedJump →
        new.count r = (flowReferences (kind = .fallThrough) (Run.stop start is) i).count r := by
  have htake : (s.takeRun start (is ++ [i])).mentions = s.mentions := by
    rw [Session.takeRun_eq]
    rfl
  rw [← htake]
  cases h with
  | ranOn ht =>
      have hnext : Run.stop start (is ++ [i]) = i.next (Run.stop start is) := by
        rw [Run.stop_append]
        rfl
      refine ⟨[⟨.fallThrough, Run.stop start is, Run.stop start (is ++ [i]), .nowhere⟩],
        Session.mentions_enqueue _ _, ?_, ?_⟩
      · intro r hr
        rw [List.mem_singleton.mp hr]
      · intro r _
        simp only [flowReferences, ht, decide_true, if_true, hnext]
  | brokeOff ht code message hreport =>
      -- The block does not run on, and its last instruction is straight.
      refine ⟨[], List.Perm.refl _, fun r hr => (by cases hr), fun r _ => ?_⟩
      simp only [flowReferences, ht, reduceCtorEq, decide_false, Bool.false_eq_true, if_false]
  | transferred t ht =>
      rcases exists_filterMap_emission (Run.stop start is) i t with ⟨probes, hprobes, hemission⟩
      refine ⟨probes ++ transferReferences (Run.stop start is) i t, ?_, ?_, ?_⟩
      · rw [Session.emit_eq_foldl, ← hemission]
        refine Session.mentions_foldl_note _ _ fun r hr => ?_
        rw [eq_of_recorded_mem_emission hr]
        exact hlast
      · intro r hr
        rcases List.mem_append.mp hr with hr | hr
        · exact (hprobes r hr).1
        · exact (source_of_mem_transferReferences hr).1
      · intro r hkind
        -- Slots are not counted, so only the transfer itself is left.
        have hnone : probes.count r = 0 :=
          List.count_eq_zero.mpr fun hmem => hkind (hprobes r hmem).2
        rw [List.count_append, hnone, Nat.zero_add]
        simp only [flowReferences, ht]

/-- A visit adds references of indexed instructions, and they are those by which the debt grows.
    This is the one place where what a visit tells is compared with what the code demands; all that
    follows about references uses it. -/
theorem Visited.accounts (h : LaidOut e.image e.context s) (hv : Visited e s r s') :
    ∃ new : List Reference, s'.mentions.Perm (new ++ s.mentions)
      ∧ (∀ r' ∈ new, ∃ i, s'.code.get? r'.source = some i)
      ∧ ∀ r', r'.kind ≠ .indexedJump → s'.owed r' = new.count r' + s.owed r' := by
  have h' := hv.laidOut h
  -- A visit that only reports adds nothing.
  have hquiet : ∀ s' : Session, s'.mentions = s.mentions → (∀ r', s'.owed r' = s.owed r') →
      ∃ new : List Reference, s'.mentions.Perm (new ++ s.mentions)
        ∧ (∀ r' ∈ new, ∃ i, s'.code.get? r'.source = some i)
        ∧ ∀ r', r'.kind ≠ .indexedJump → s'.owed r' = new.count r' + s.owed r' := by
    intro s' hmentions howed
    refine ⟨[], by rw [hmentions]; exact List.Perm.refl _, fun r' hr => (by cases hr), ?_⟩
    intro r' _
    rw [howed, List.count_nil, Nat.zero_add]
  cases hv with
  | misdirected code what hwhy => exact hquiet _ rfl fun _ => rfl
  | known id hstart => exact hquiet _ rfl fun _ => rfl
  | stuck code message hwhy => exact hquiet _ rfl fun _ => rfl
  | cut id whole j last i hget hin hj hne hi hnext hlast straight =>
      refine ⟨[⟨.fallThrough, last, r.target, .nowhere⟩], ?_, ?_, ?_⟩
      · refine Session.mentions_record _ ?_
        rw [Reference.isAnchored, h.isSomewhere hi, Bool.true_or]
      · intro r' hr
        rw [List.mem_singleton.mp hr]
        simp only [Session.record_stores]
        exact ⟨i, hi⟩
      · intro r' _
        rw [Session.owed_congr { s with blocks := s.blocks.cut id whole r.target }
          (by simp only [Session.record_stores]) (by simp only [Session.record_stores])]
        exact owed_cut h hget hin hj hne hi hnext hlast straight r'
  | decoded is i kind s1 fresh straight hlen hending =>
      have hlast : (s.takeRun r.target (is ++ [i])).code.get? (Run.stop r.target is) = some i :=
        (isRun_append.mp (Session.isRun_takeRun s fresh.run)).2.1
      rcases hending.stores with ⟨-, hcode, hblocks⟩
      rcases hending.accounts ((h.toIndexed.takeRun fresh).isSomewhere hlast)
        with ⟨new, hmentions, hsource, hcount⟩
      refine ⟨new, ?_, ?_, ?_⟩
      · rw [s1.mentions_congr (by simp only [Session.close_stores])
          (by simp only [Session.close_stores])]
        exact hmentions
      · intro r' hr
        simp only [Session.close_stores, hcode, hsource r' hr]
        exact ⟨i, hlast⟩
      · intro r' hkind
        rw [owed_close h h' fresh straight kind (by simp only [Session.close_stores, hcode])
          (by simp only [Session.close_stores, hblocks]) r', hcount r' hkind]

end Steps

/-- The books of a session balance on some references. Those that come from somewhere come from an
    indexed instruction, and each is there as often as the session owes it. References through a
    table are left out: how many there are depends on the words of the table, and not on the
    instruction. -/
structure Balanced (refs : List Reference) (s : Session) : Prop where
  sourced : ∀ r ∈ refs, r.source.isSomewhere → ∃ i, s.code.get? r.source = some i
  counted : ∀ r, r.source.isSomewhere → r.kind ≠ .indexedJump → refs.count r = s.owed r

namespace Balanced

variable {refs refs' new : List Reference} {s s' : Session} {r : Reference}

/-- Only how often a reference occurs matters, not where. -/
theorem perm (h : Balanced refs s) (hperm : refs'.Perm refs) : Balanced refs' s where
  sourced r hr := h.sourced r (hperm.mem_iff.mp hr)
  counted r hsource hkind := by
    rw [hperm.count_eq]
    exact h.counted r hsource hkind

/-- The books depend on the instructions and the blocks. -/
theorem congr (h : Balanced refs s) (hcode : s'.code = s.code) (hblocks : s'.blocks = s.blocks) :
    Balanced refs s' where
  sourced r hr hsource := by
    rw [hcode]
    exact h.sourced r hr hsource
  counted r hsource hkind := by
    rw [s.owed_congr hcode hblocks]
    exact h.counted r hsource hkind

/-- Balance is kept if the debt grows by the references that come new. -/
theorem add (h : Balanced refs s)
    (hcode : ∀ {a i}, s.code.get? a = some i → s'.code.get? a = some i)
    (hnew : ∀ r ∈ new, ∃ i, s'.code.get? r.source = some i)
    (howed : ∀ r, r.kind ≠ .indexedJump → s'.owed r = new.count r + s.owed r) :
    Balanced (new ++ refs) s' where
  sourced r hr hsource := by
    rcases List.mem_append.mp hr with hr | hr
    · exact hnew r hr
    · rcases h.sourced r hr hsource with ⟨i, hi⟩
      exact ⟨i, hcode hi⟩
  counted r hsource hkind := by
    rw [List.count_append, howed r hkind, h.counted r hsource hkind]

/-- References without a source are not accounted for. -/
theorem cons_nowhere_iff (hr : ¬ r.source.isSomewhere) :
    Balanced (r :: refs) s ↔ Balanced refs s := by
  have hne : ∀ {r' : Reference}, r'.source.isSomewhere → r ≠ r' := by
    intro r' hsource heq
    rw [heq] at hr
    exact hr hsource
  constructor
  · intro h
    refine ⟨fun r' hr' => h.sourced r' (List.mem_cons_of_mem r hr'), fun r' hsource hkind => ?_⟩
    rw [← h.counted r' hsource hkind, List.count_cons_of_ne (hne hsource)]
  · intro h
    refine ⟨fun r' hr' hsource => ?_, fun r' hsource hkind => ?_⟩
    · rcases List.mem_cons.mp hr' with heq | hr'
      · exact absurd heq.symm (hne hsource)
      · exact h.sourced r' hr' hsource
    · rw [List.count_cons_of_ne (hne hsource)]
      exact h.counted r' hsource hkind

/-- References through a table are not counted, so others with the same source may take
    the place of one. -/
theorem swap (h : Balanced (r :: refs) s) (hr : r.kind = .indexedJump)
    (hnew : ∀ r' ∈ new, r'.source = r.source ∧ r'.kind = .indexedJump) :
    Balanced (new ++ refs) s where
  sourced r' hr' hsource := by
    rcases List.mem_append.mp hr' with hr' | hr'
    · rw [(hnew r' hr').1] at hsource ⊢
      exact h.sourced r List.mem_cons_self hsource
    · exact h.sourced r' (List.mem_cons_of_mem r hr') hsource
  counted r' hsource hkind := by
    have hne : r ≠ r' := by
      intro heq
      rw [heq] at hr
      exact hkind hr
    have hnone : new.count r' = 0 := List.count_eq_zero.mpr fun hmem => hkind (hnew r' hmem).2
    have hcount := h.counted r' hsource hkind
    rw [List.count_cons_of_ne hne] at hcount
    rw [List.count_append, hnone, Nat.zero_add, hcount]

end Balanced

section Sessions

variable {e : Explorer} {s s' : Session} {r : Reference}

/-- A slot is taken for the next one and for what its word names, all of them of one jump. -/
theorem SlotRead.balanced (h : SlotRead e s r s') (hkind : r.kind = .indexedJump)
    (hs : Balanced (r :: s.mentions) s) : Balanced s'.mentions s' := by
  cases h with
  | refused =>
      have hnew : ∀ r' ∈ ([] : List Reference), r'.source = r.source ∧ r'.kind = .indexedJump :=
        fun r' hr' => (by cases hr')
      exact hs.swap hkind hnew
  | accepted word hword hlimit hfree hin hlanding hself =>
      generalize (⟨r.source.segment, Int32.ofNat (littleEndian word)⟩ : Address) = target
      have hnew : ∀ r' ∈ [Reference.probe r.source (r.slot.advance 2),
          ⟨.indexedJump, r.source, target, r.slot⟩],
          r'.source = r.source ∧ r'.kind = .indexedJump := by
        intro r' hr'
        rcases List.mem_cons.mp hr' with rfl | hr'
        · exact ⟨rfl, rfl⟩
        · rw [List.mem_singleton.mp hr']
          exact ⟨rfl, rfl⟩
      -- Taking the slot touches bytes, a counter and the queue, none of which is on the books.
      have hmoved : Balanced (_ :: _ :: s.mentions) (s.takeSlot r.source r.slot target) :=
        (hs.swap hkind hnew).congr rfl rfl
      refine hmoved.perm ((Session.mentions_enqueue _ _).trans (List.Perm.cons _ ?_))
      exact Session.mentions_enqueue _ _

/-- Following a reference keeps the books balanced. Before it is followed, the reference
    is in nobody's hands, neither pending nor recorded. -/
theorem Followed.balanced (hf : Followed e s r s') (hlaid : LaidOut e.image e.context s)
    (hs : Balanced (r :: s.mentions) s) : Balanced s'.mentions s' := by
  -- The log takes a reference that has an end; one without ends is not accounted for.
  have hrecord : ∀ {s : Session}, Balanced (r :: s.mentions) s →
      Balanced (s.record r).mentions (s.record r) := by
    intro s hs
    have hcongr : Balanced (r :: s.mentions) (s.record r) :=
      hs.congr (by simp only [Session.record_stores]) (by simp only [Session.record_stores])
    by_cases hkept : r.isAnchored
    · exact hcongr.perm (s.mentions_record hkept)
    · have hsource : ¬ r.source.isSomewhere := by
        intro hsome
        exact hkept (by rw [Reference.isAnchored, hsome, Bool.true_or])
      rw [s.mentions_record_nowhere hkept]
      exact (Balanced.cons_nowhere_iff hsource).mp hcongr
  cases hf with
  | slot hprobe s' h =>
      simp only [Reference.isProbe, Bool.and_eq_true, decide_eq_true_eq] at hprobe
      exact h.balanced hprobe.1 hs
  | dynamic hprobe htarget => exact hrecord (hs.congr rfl rfl)
  | visited htarget s' hv =>
      -- What the visit adds is put in front, and the reference itself is recorded last.
      rcases hv.accounts hlaid with ⟨new, hmentions, hnew, howed⟩
      refine hrecord ((hs.add (hv.get?_code hlaid) hnew howed).perm ?_)
      exact (hmentions.cons r).trans List.perm_middle.symm

/-- The books of an explored session balance. -/
theorem Explored.balanced {image : Image} {context : DecodeContext}
    (h : Explored image context (fun limits => 1 ≤ limits.blockInstructions) s) :
    Balanced s.mentions s := by
  refine (h.keeps_laidOut (P := fun s => Balanced s.mentions s) (fun _ hl => hl) ?_ ?_ ?_).2
  -- A fresh session owes nothing and mentions nothing.
  · refine ⟨fun r hr => (by cases hr), fun r _ _ => ?_⟩
    simp only [Session.owed, Session.get?_fresh]
    rfl
  · intro s entry kind hs _
    have hmoved : Balanced s.mentions (s.enqueue ⟨kind, .nowhere, entry, .nowhere⟩) :=
      hs.congr rfl rfl
    -- An entry point has no source.
    have hentry : ¬ Address.nowhere.isSomewhere := by decide
    exact ((Balanced.cons_nowhere_iff hentry).mpr hmoved).perm (s.mentions_enqueue _)
  · intro s limits r queue s' hs _ hpop hlaid hfollowed
    have hpopped : Balanced s.mentions { s with queue := queue } := hs.congr rfl rfl
    exact hfollowed.balanced hlaid (hpopped.perm (s.mentions_pop hpop).symm)

end Sessions

section Analyses

variable {image : Image} {context : DecodeContext} {entries : List Address}
  {options : AnalysisOptions} {cancelled : Nat → Bool} {analysis : Analysis}

/-- What the queueing of an entry point keeps, seeding keeps. -/
theorem seedEntries_keeps {P : Session → Prop} {s seeded : Session}
    (hentry : ∀ s entry, P s → entry.isSomewhere →
      P (s.enqueue ⟨.entry, .nowhere, entry, .nowhere⟩))
    (hs : P s) (h : seedEntries image s entries = .ok seeded) : P seeded := by
  induction entries generalizing s with
  | nil =>
      simp only [seedEntries, Except.ok.injEq] at h
      rw [← h]
      exact hs
  | cons entry rest ih =>
      unfold seedEntries at h
      by_cases hsome : entry.isSomewhere
      · by_cases hin : image.contains entry
        · -- The entry is queued. In the other two cases seeding has failed.
          simp only [hsome, hin, Bool.not_true, Bool.false_eq_true, if_false] at h
          exact ih (hentry s entry hs hsome) h
        · simp only [hsome, hin, Bool.not_true, Bool.not_false, Bool.false_eq_true, if_false,
            if_true, reduceCtorEq] at h
      · simp only [hsome, Bool.not_false, if_true, reduceCtorEq] at h

/-- A finished analysis has seeded its entry points and explored to the end. -/
theorem analyzeImage_eq_ok
    (h : analyzeImage image context entries options cancelled = .ok analysis) :
    ∃ seeded s, seedEntries image .fresh
        (if entries.isEmpty then defaultEntries image else entries) = .ok seeded
      ∧ Explorer.run ⟨image, context, options.limits⟩ cancelled seeded = .ok (s, .ok ())
      ∧ analysis = .ofSession s options.buildProcedures := by
  unfold analyzeImage at h
  cases hseed : seedEntries image .fresh (if entries.isEmpty then defaultEntries image else entries)
    with
  | error fault => simp only [hseed, reduceCtorEq] at h
  | ok seeded =>
      simp only [hseed] at h
      refine ⟨seeded, ?_⟩
      -- A run that broke off or was cancelled has led to no analysis.
      generalize Explorer.run ⟨image, context, options.limits⟩ cancelled seeded = out at *
      rcases out with cause | ⟨s, fault | done⟩
      · simp only [reduceCtorEq] at h
      · simp only [reduceCtorEq] at h
      · simp only [Except.ok.injEq] at h
        exact ⟨s, rfl, rfl, h.symm⟩

/-- A finished analysis comes from an explored session in which nothing is pending. -/
theorem exists_session_of_analyzeImage (hlimit : 1 ≤ options.limits.blockInstructions)
    (h : analyzeImage image context entries options cancelled = .ok analysis) :
    ∃ s, Explored image context (fun limits => 1 ≤ limits.blockInstructions) s
      ∧ s.queue.pending = [] ∧ analysis = .ofSession s options.buildProcedures := by
  rcases analyzeImage_eq_ok h with ⟨seeded, s, hseed, hrun, rfl⟩
  have hseeded : Explored image context (fun limits => 1 ≤ limits.blockInstructions) seeded :=
    seedEntries_keeps (fun s entry hs hsome => hs.enqueue hlimit hsome .entry) .fresh hseed
  have hpending := Explorer.run_pending (e := ⟨image, context, options.limits⟩) (s := seeded)
    hlimit hrun
  exact ⟨s, hseeded.run options.limits hlimit cancelled hrun, hpending, rfl⟩

/-- The references of a finished analysis that leave an instruction, those through a jump table
    apart, are the static flow of the instruction. And no reference leaves an address at which no
    instruction is indexed. When an analysis has finished nothing is pending, so the books balance
    on the log alone. -/
theorem analyzeImage_references (hlimit : 1 ≤ options.limits.blockInstructions)
    (h : analyzeImage image context entries options cancelled = .ok analysis) :
    (∀ a i, analysis.code.get? a = some i →
      (analysis.references.toList.filter fun r => r.source = a ∧ r.kind ≠ .indexedJump).Perm
        (flowReferences (analysis.blocks.runsOn a (i.next a)) a i))
      ∧ ∀ r ∈ analysis.references.toList, r.source.isSomewhere →
        ∃ i, analysis.code.get? r.source = some i := by
  rcases exists_session_of_analyzeImage hlimit h with ⟨s, hexplored, hpending, rfl⟩
  -- Nothing is pending, so all that is mentioned has been recorded.
  have hmentions : s.mentions = s.references.toList := by
    rw [Session.mentions, hpending, List.append_nil]
  have hbalanced := hexplored.balanced
  rw [hmentions] at hbalanced
  refine ⟨fun a i hi => List.perm_iff_count.mpr fun r => ?_, hbalanced.sourced⟩
  by_cases hr : r.source = a ∧ r.kind ≠ .indexedJump
  · have hi' : s.code.get? a = some i := hi
    have hcount := hbalanced.counted r (by rw [hr.1]; exact hexplored.laidOut.isSomewhere hi') hr.2
    simp only [Session.owed, hr.1, hi'] at hcount
    rw [List.count_filter]
    · exact hcount
    · exact decide_eq_true hr
  · -- Other references are left out on the one side and do not occur on the other.
    rw [List.count_eq_zero.mpr, List.count_eq_zero.mpr]
    · intro hmem
      exact hr (source_of_mem_flowReferences hmem)
    · intro hmem
      exact hr (of_decide_eq_true (List.mem_filter.mp hmem).2)

end Analyses

/-- A branch back into its own block, and behind it a call of the last instruction. -/
def branchBack : Image :=
  Image.ofBytes #[0x90, 0x90, 0x75, 0xFD, 0xE8, 0x01, 0x00, 0xC3, 0xC3] 0

/-- Cutting the block of the branch gives its first instruction a reference. The branch and the
    call go on behind themselves as well, and a return goes nowhere. -/
theorem analyzeImage_references_branchBack :
    let flow : List (Address × List Reference) :=
      [(⟨0, 0⟩, [⟨.fallThrough, ⟨0, 0⟩, ⟨0, 1⟩, .nowhere⟩]), (⟨0, 1⟩, []),
        (⟨0, 2⟩, [⟨.transfer .conditionalJump, ⟨0, 2⟩, ⟨0, 1⟩, .nowhere⟩,
          ⟨.fallThrough, ⟨0, 2⟩, ⟨0, 4⟩, .nowhere⟩]),
        (⟨0, 4⟩, [⟨.transfer .nearCall, ⟨0, 4⟩, ⟨0, 8⟩, .nowhere⟩,
          ⟨.fallThrough, ⟨0, 4⟩, ⟨0, 7⟩, .nowhere⟩]),
        (⟨0, 8⟩, [⟨.transfer .nearReturn, ⟨0, 8⟩, .nowhere, .nowhere⟩])]
    ∃ analysis, analyzeImage branchBack {} [] {} (fun _ => false) = .ok analysis
      ∧ ∀ x ∈ flow, (analysis.references.toList.filter fun r =>
        r.source = x.1 ∧ r.kind ≠ .indexedJump).Perm x.2 := by
  intro flow
  -- What is owed is computed, and the theorem says that it is what has been recorded.
  have hfound : (analyzeImage branchBack {} [] {} (fun _ => false)).toOption.any (fun analysis =>
      flow.all fun x => (analysis.code.get? x.1).any fun i =>
        flowReferences (analysis.blocks.runsOn x.1 (i.next x.1)) x.1 i = x.2) = true := by
    decide +kernel
  rcases exists_ok_of_any hfound with ⟨analysis, h, hall⟩
  refine ⟨analysis, h, fun x hx => ?_⟩
  rcases (Option.any_eq_true _ _).mp (List.all_eq_true.mp hall x hx) with ⟨i, hi, hrefs⟩
  rw [← of_decide_eq_true hrefs]
  exact (analyzeImage_references (by decide) h).1 x.1 i hi

end Disasm86
