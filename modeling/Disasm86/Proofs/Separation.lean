import Disasm86.Proofs.Confinement

/-!
# Segments Do Not Influence Each Other

An analysis depends on the segments of its entry points and on no others. Two images that
have the same segments there are analysed alike, whatever else they hold.

Following a reference reads the image at the target of the reference, at the addresses that
decoding runs through from there, at a slot, and at the address that a slot names. All of
them lie in the segments that the reference lies in, so on two images that agree on those,
following the reference comes to the same session. Since nothing leaves the segments of the
entry points, the two runs go side by side from the first reference to the last.

There is one thing that looks at the whole image: the bound that a run recurses on. It
differs between the two images. But it is never what ends a run, because it covers the
workload on its own image.

## Main definitions

* `Image.AgreeOn`: Two images have the same segments of some numbers.
* `Analysis.LiesIn`: Everything that an analysis has found lies in some segments.

## Theorems

* `window?_congr`, `contains_congr`, `bytes?_congr`: Reading an image reads one segment.
* `decodeStretch_congr`, `visit_congr`, `readSlot_congr`: So does exploring.
* `process_congr`: Following a reference reads the segments that it lies in.
* `drain_congr`: Draining a queue does, and does not depend on a bound that is large enough.
* `run_congr`: So does a whole run.
* `seedEntries_congr`, `seedEntries_liesIn`: Seeding stays in the segments of the entry points.
* `analyzeImage_separate`: An analysis depends on the segments of its entry points only.
-/

namespace Disasm86

namespace Image

variable {x y : Image} {numbers : List Int32} {a : Address}

/-- The images have the same segments of these numbers, or both have none. -/
def AgreeOn (numbers : List Int32) (x y : Image) : Prop :=
  ∀ number ∈ numbers, x.segment? number = y.segment? number

/-- No image has a segment where nothing can lie. -/
theorem AgreeOn.segment?_eq (h : AgreeOn numbers x y) (ha : a.LiesIn numbers) :
    x.segment? a.segment = y.segment? a.segment := by
  rcases ha with rfl | hmem
  · have hnone : ∀ image : Image, image.segment? Address.nowhere.segment = none :=
      fun image => if_pos (by decide)
    rw [hnone, hnone]
  · exact h _ hmem

theorem window?_congr (h : x.segment? a.segment = y.segment? a.segment) :
    x.window? a = y.window? a := by
  unfold window?
  rw [h]

theorem contains_congr (h : x.segment? a.segment = y.segment? a.segment) :
    x.contains a = y.contains a := by
  unfold contains
  rw [h]

theorem bytes?_congr (h : x.segment? a.segment = y.segment? a.segment) (n : Nat) :
    x.bytes? a n = y.bytes? a n := by
  unfold bytes?
  rw [h]

end Image

namespace Explorer

variable {x y : Image} {numbers : List Int32} {context : DecodeContext} {limits : Limits}
  {r : Reference}

/-- Straight-line decoding reads the segment that it starts in. -/
theorem decodeStretch_congr {location : Address}
    (h : x.segment? location.segment = y.segment? location.segment) (budget : Nat)
    (s : Session) : decodeStretch ⟨x, context, limits⟩ budget location s
      = decodeStretch ⟨y, context, limits⟩ budget location s := by
  induction budget generalizing location s with
  | zero => rfl
  | succ budget ih =>
      -- The address behind an instruction is in the same segment, so the rest is read alike.
      have hnext : ∀ (i : Instruction) (s : Session),
          decodeStretch ⟨x, context, limits⟩ budget (i.next location) s
            = decodeStretch ⟨y, context, limits⟩ budget (i.next location) s :=
        fun i s => ih (show x.segment? (i.next location).segment = _ from h) s
      unfold decodeStretch
      simp only [Image.window?_congr h, hnext]

/-- A visit reads the segment of its target. -/
theorem visit_congr (h : x.segment? r.target.segment = y.segment? r.target.segment)
    (s : Session) : visit ⟨x, context, limits⟩ r s = visit ⟨y, context, limits⟩ r s := by
  unfold visit decodeBlock
  simp only [Image.contains_congr h, decodeStretch_congr h]

/-- A slot is read in its own segment, and its word is looked up in that of the jump. -/
theorem readSlot_congr (hslot : x.segment? r.slot.segment = y.segment? r.slot.segment)
    (hsource : x.segment? r.source.segment = y.segment? r.source.segment) (s : Session) :
    readSlot ⟨x, context, limits⟩ r s = readSlot ⟨y, context, limits⟩ r s := by
  have hlanding : ∀ offset, x.contains ⟨r.source.segment, offset⟩
      = y.contains ⟨r.source.segment, offset⟩ := fun offset => Image.contains_congr hsource
  unfold readSlot
  simp only [Image.bytes?_congr hslot, hlanding]

/-- Following a reference reads no segments but those that the reference lies in. -/
theorem process_congr (h : Image.AgreeOn numbers x y) (hr : r.LiesIn numbers)
    (context : DecodeContext) (limits : Limits) (s : Session) :
    process ⟨x, context, limits⟩ r s = process ⟨y, context, limits⟩ r s := by
  unfold process
  rw [readSlot_congr (h.segment?_eq hr.slot) (h.segment?_eq hr.source),
    visit_congr (h.segment?_eq hr.target)]

/-- Two images that agree on the segments of a session are explored alike. Each of them has
    a bound of its own, which has to cover the workload on that image. -/
theorem drain_congr (hagree : Image.AgreeOn numbers x y)
    (hlimit : 1 ≤ limits.blockInstructions) (cancelled : Nat → Bool) (bound bound' asked : Nat)
    (s : Session) (hbound : workload ⟨x, context, limits⟩ s ≤ bound)
    (hbound' : workload ⟨y, context, limits⟩ s ≤ bound') (hlaid : LaidOut x context s)
    (hs : s.LiesIn numbers) :
    drain ⟨x, context, limits⟩ cancelled bound asked s
      = drain ⟨y, context, limits⟩ cancelled bound' asked s := by
  -- The induction is on the first bound; the second falls with it.
  induction bound generalizing bound' asked s with
  | zero =>
      have hempty : s.queue.pending = [] := by
        refine List.eq_nil_of_length_eq_zero ?_
        unfold workload Session.pending ReferenceQueue.size at hbound
        omega
      rw [drain_of_pending_eq_nil hempty, drain_of_pending_eq_nil hempty]
  | succ bound ih =>
      cases hpop : s.queue.pop? with
      | none =>
          have hempty := ReferenceQueue.pop?_eq_none hpop
          rw [drain_of_pending_eq_nil hempty, drain_of_pending_eq_nil hempty]
      | some next =>
          rcases next with ⟨r, queue⟩
          have hmentions := s.mentions_pop hpop
          have hr : r.LiesIn numbers :=
            hs.references (hmentions.mem_iff.mpr List.mem_cons_self)
          have hpopped : ({ s with queue := queue } : Session).LiesIn numbers :=
            ⟨hs.bytes, fun hmem => hs.references (hmentions.mem_iff.mpr
              (List.mem_cons_of_mem r hmem))⟩
          have hlaid' : LaidOut x context { s with queue := queue } := hlaid.congr rfl rfl rfl
          have hsame := process_congr hagree hr context limits { s with queue := queue }
          have hpos := workload_pos (e := ⟨y, context, limits⟩) hpop
          -- Something is pending, so the second bound has not run out either.
          cases bound' with
          | zero => omega
          | succ bound' =>
              by_cases hc : cancelled asked
              · simp only [drain, hpop, if_pos hc]
              · rw [drain_succ hpop hc, drain_succ hpop hc, ← hsame]
                cases hprocess : process ⟨x, context, limits⟩ r { s with queue := queue } with
                | error cause => rfl
                | ok s' =>
                    have hlt := process_workload_lt hlimit hpop hprocess
                    have hf := process_followed hlaid' hlimit hprocess
                    rw [hsame] at hprocess
                    have hlt' := process_workload_lt hlimit hpop hprocess
                    exact ih bound' (asked + 1) s' (by omega) (by omega) (hf.laidOut hlaid')
                      (hf.liesIn hlaid' hr hpopped)

/-- A run covers the workload by its bound, so all that counts is what it reads. -/
theorem run_congr (hagree : Image.AgreeOn numbers x y) (hlimit : 1 ≤ limits.blockInstructions)
    (cancelled : Nat → Bool) {s : Session} (hlaid : LaidOut x context s)
    (hs : s.LiesIn numbers) :
    run ⟨x, context, limits⟩ cancelled s = run ⟨y, context, limits⟩ cancelled s :=
  drain_congr hagree hlimit cancelled _ _ 0 s (workload_le_bound _ s) (workload_le_bound _ s)
    hlaid hs

end Explorer

section Seeding

variable {x y image : Image} {entries : List Address} {numbers : List Int32}

/-- Seeding asks for each entry point whether it is in the image. -/
theorem seedEntries_congr (h : ∀ entry ∈ entries, x.contains entry = y.contains entry)
    (s : Session) : seedEntries x s entries = seedEntries y s entries := by
  induction entries generalizing s with
  | nil => rfl
  | cons entry rest ih =>
      unfold seedEntries
      rw [h entry List.mem_cons_self, ih fun other hmem => h other (List.mem_cons_of_mem _ hmem)]

/-- Seeding stays in the segments of the entry points. -/
theorem seedEntries_liesIn {s seeded : Session}
    (hentries : ∀ entry ∈ entries, entry.segment ∈ numbers) (hs : s.LiesIn numbers)
    (h : seedEntries image s entries = .ok seeded) : seeded.LiesIn numbers := by
  induction entries generalizing s with
  | nil =>
      cases h
      exact hs
  | cons entry rest ih =>
      unfold seedEntries at h
      split at h
      · cases h
      · split at h
        · cases h
        · refine ih (fun other hmem => hentries other (List.mem_cons_of_mem _ hmem)) ?_ h
          exact hs.enqueue ⟨Or.inl rfl, Or.inr (hentries entry List.mem_cons_self), Or.inl rfl⟩

/-- A fresh session knows nothing, wherever it lies. -/
theorem Session.liesIn_fresh (numbers : List Int32) : Session.fresh.LiesIn numbers where
  bytes := by
    intro a ha
    rw [show Session.fresh.bytes = ByteMap.empty from rfl, ByteMap.get_empty] at ha
    exact absurd rfl ha
  references := by
    intro r hr
    cases hr

end Seeding

/-- Everything that the analysis has found lies in the segments. -/
structure Analysis.LiesIn (numbers : List Int32) (analysis : Analysis) : Prop where
  bytes : ∀ a, (analysis.bytes.get a).kind ≠ .unknown → a.segment ∈ numbers
  code : ∀ a i, analysis.code.get? a = some i → a.segment ∈ numbers
  blocks : ∀ id b, analysis.blocks.get? id = some b → b.start.segment ∈ numbers
  references : ∀ r ∈ analysis.references.toList,
    (r.source.isSomewhere → r.source.segment ∈ numbers)
      ∧ (r.target.isSomewhere → r.target.segment ∈ numbers)
      ∧ (r.slot.isSomewhere → r.slot.segment ∈ numbers)

section Analyses

variable {x y image : Image} {entries : List Address} {numbers : List Int32} {s : Session}

/-- What an analysis shows was in the session. -/
theorem Session.LiesIn.ofSession {context : DecodeContext}
    (hlaid : LaidOut image context s) (hs : s.LiesIn numbers) (buildProcedures : Bool) :
    (Analysis.ofSession s buildProcedures).LiesIn numbers where
  bytes _ ha := hs.bytes ha
  code _ _ hi := (hs.segment_mem hlaid).1 hi
  blocks _ _ hget := (hs.segment_mem hlaid).2 hget
  references r hr := by
    have hlies := hs.references (List.mem_append_left _ hr)
    exact ⟨hlies.source.segment_mem, hlies.target.segment_mem, hlies.slot.segment_mem⟩

/-- Two images that have the same segments where the entry points lie are analysed alike: with the
    same fault, or with the same result. And what an analysis finds lies in the segments of its
    entry points. Neither branches nor tables lead from one segment into another, so other segments
    are never read. -/
theorem analyzeImage_separate (context : DecodeContext) (options : AnalysisOptions)
    (cancelled : Nat → Bool) (hlimit : 1 ≤ options.limits.blockInstructions)
    (hsome : entries ≠ [])
    (hagree : ∀ entry ∈ entries, x.segment? entry.segment = y.segment? entry.segment) :
    analyzeImage x context entries options cancelled
        = analyzeImage y context entries options cancelled
      ∧ ∀ analysis, analyzeImage x context entries options cancelled = .ok analysis →
        analysis.LiesIn (entries.map (·.segment)) := by
  have hnumbers : Image.AgreeOn (entries.map (·.segment)) x y := by
    intro number hmem
    rcases List.mem_map.mp hmem with ⟨entry, hentry, rfl⟩
    exact hagree entry hentry
  have hgiven : (if entries.isEmpty then defaultEntries x else entries) = entries
      ∧ (if entries.isEmpty then defaultEntries y else entries) = entries := by
    have hfalse : entries.isEmpty = false := List.isEmpty_eq_false_iff.mpr hsome
    simp only [hfalse, Bool.false_eq_true, if_false, and_self]
  -- The entry points are queued in a session that is laid out and lies in their segments.
  have hseeded : ∀ {seeded}, seedEntries x .fresh entries = .ok seeded →
      LaidOut x context seeded ∧ seeded.LiesIn (entries.map (·.segment)) := by
    intro seeded hseed
    refine ⟨seedEntries_keeps (fun s entry hs _ => hs.congr rfl rfl rfl) LaidOut.fresh hseed, ?_⟩
    exact seedEntries_liesIn (fun entry hentry => List.mem_map_of_mem hentry)
      (Session.liesIn_fresh _) hseed
  constructor
  · -- Seeding goes the same way on both images, and so does the run from there on.
    unfold analyzeImage
    simp only [hgiven]
    rw [← seedEntries_congr fun entry hentry => Image.contains_congr (hagree entry hentry)]
    cases hseed : seedEntries x .fresh entries with
    | error fault => rfl
    | ok seeded =>
        simp only []
        rw [Explorer.run_congr hnumbers hlimit cancelled (hseeded hseed).1 (hseeded hseed).2]
  · intro analysis h
    rcases analyzeImage_eq_ok h with ⟨seeded, s, hseed, hrun, rfl⟩
    rw [hgiven.1] at hseed
    have hkeeps := run_keeps_laidOut (e := ⟨x, context, options.limits⟩)
      (P := Session.LiesIn (entries.map (·.segment))) hlimit ?_ (hseeded hseed).1
      (hseeded hseed).2 hrun
    · exact hkeeps.2.ofSession hkeeps.1 _
    · intro s r queue s' hs hpop hlaid hf
      have hmentions := s.mentions_pop hpop
      refine hf.liesIn hlaid (hs.references (hmentions.mem_iff.mpr List.mem_cons_self))
        ⟨hs.bytes, fun hmem => ?_⟩
      exact hs.references (hmentions.mem_iff.mpr (List.mem_cons_of_mem r hmem))

end Analyses

/-- Some bytes in a first segment, and in a second one a jump through a table of two slots
    into a loop. -/
def besideTable (data : Array UInt8) : Image :=
  (Image.empty.addSegment 0 data).addSegment 0
    #[0x2E, 0xFF, 0xA7, 0x05, 0x00, 0x0B, 0x00, 0x0C, 0x00, 0xFF, 0xFF, 0x90, 0x90, 0xEB, 0xFC]

/-- The bytes of the first segment do not matter to what is found in the second. -/
theorem analyzeImage_separate_besideTable :
    ∃ analysis, analyzeImage (besideTable #[0x90, 0xC3]) {} [⟨1, 0⟩] {} (fun _ => false)
        = .ok analysis
      ∧ analyzeImage (besideTable #[]) {} [⟨1, 0⟩] {} (fun _ => false) = .ok analysis
      ∧ analysis.blocks.size = 3 ∧ analysis.bytes.count .data = 4 ∧ analysis.LiesIn [1] := by
  have hfound : (analyzeImage (besideTable #[0x90, 0xC3]) {} [⟨1, 0⟩] {}
      (fun _ => false)).toOption.any (fun analysis =>
        analysis.blocks.size = 3 ∧ analysis.bytes.count .data = 4) = true := by
    decide +kernel
  have hsame : ∀ entry ∈ [(⟨1, 0⟩ : Address)],
      (besideTable #[0x90, 0xC3]).segment? entry.segment
        = (besideTable #[]).segment? entry.segment := by
    intro entry hentry
    rw [List.mem_singleton.mp hentry]
    rfl
  have hseparate := analyzeImage_separate {} {} (fun _ => false) (by decide) (by decide) hsame
  rcases exists_ok_of_any hfound with ⟨analysis, h, hcounts⟩
  rcases of_decide_eq_true hcounts with ⟨hblocks, hdata⟩
  exact ⟨analysis, h, by rw [← hseparate.1, h], hblocks, hdata, hseparate.2 analysis h⟩

end Disasm86
