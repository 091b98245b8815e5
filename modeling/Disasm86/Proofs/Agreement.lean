import Disasm86.Proofs.Accounting
import Disasm86.Proofs.Contents
import Disasm86.Proofs.Resync

/-!
# Sweeping and Following Agree Where They Are in Step

The two ways of finding instructions need not find the same ones. A sweep decodes what nothing
leads to, and if it comes out of step with the flow, it decodes the bytes of a block from other
addresses. But where it hits upon the start of a block, it finds the instructions of the block
and no others.

Both decode at an address and go on behind the instruction. So a sweep that starts at a run of
instructions finds the run, which is `filter_sweep_run`. A sweep that has found an instruction
goes on as if it had started there, which is `filter_sweep`.

What remains is a matter of addresses. A sweep works with offsets of a segment, and an offset
stands for an address as long as it has 16 bits. The sweeps of all segments are put together in
the order of their numbers, so the whole ascends, and two lists that ascend are the same if
they have the same members.

## Main definitions

* `Image.foundAt`: What decoding finds at an offset of a segment.
* `placed`: An instruction at the address of its offset.

## Theorems

* `sweepSegment_eq`: The instructions of a segment are those of one sweep.
* `mem_linearSweep_iff`: What sweeping an image finds.
* `ascending_linearSweep`: Sweeping an image finds instructions by ascending address.
* `filter_sweep_run`: A sweep that starts at a run finds the run.
* `mem_linearSweep_iff_of_run`: A sweep in step with a run finds the run and nothing else.
* `analyzeImage_inStep`: A sweep in step with a block finds the block.
-/

namespace Disasm86

/-- What decoding finds at an offset of a segment. -/
def Image.foundAt (image : Image) (context : DecodeContext) (number : Int32) (offset : Nat) :
    Option Instruction :=
  image.instructionAt? context ⟨number, Int32.ofNat offset⟩

/-- An instruction at the address of its offset. -/
def placed (number : Int32) (x : Nat × Instruction) : Address × Instruction :=
  (⟨number, Int32.ofNat x.1⟩, x.2)

variable {image : Image} {context : DecodeContext} {number : Int32} {start stop next : Nat}
  {a : Address} {i : Instruction}

section Segments

/-- A segment is swept in chunks, and that is one sweep. -/
theorem sweepSegment_eq (image : Image) (context : DecodeContext) (number : Int32)
    (start stop : Nat) : sweepSegment image context number start stop
      = (sweep (image.foundAt context number) stop start).map (placed number) :=
  congrArg (List.map _) (joinChunks_chunks (by decide) sweep_of_le)

/-- The bounds of a segment tell which of its addresses are in the image. -/
theorem Image.bounds?_eq_some (h : image.bounds? number = some (start, stop)) :
    stop ≤ 65536 ∧ ∀ a : Address, a.segment = number →
      (image.contains a ↔ (start : Int) ≤ a.offset.toInt ∧ a.offset.toInt < stop) := by
  rcases Option.map_eq_some_iff.mp h with ⟨s, hs, hbounds⟩
  cases hbounds
  refine ⟨s.fits, fun a ha => ?_⟩
  rw [contains_iff, ha, hs]
  simp only [Option.some.injEq, exists_eq_left']

/-- The numbers of segments ascend, since none of them exceeds 31 bits. -/
theorem Image.pairwise_segmentNumbers (image : Image) :
    image.segmentNumbers.Pairwise (· < ·) := by
  have hcount := Int32.toInt_lt (Int32.ofNat image.segments.size)
  unfold segmentNumbers
  rw [List.pairwise_map]
  refine List.pairwise_lt_range.imp_of_mem fun {m n} hm hn hlt => ?_
  rw [List.mem_range] at hm hn
  rw [Int32.lt_iff_toInt_lt, Int32.toInt_ofNat_of_lt (by omega), Int32.toInt_ofNat_of_lt (by omega)]
  omega

/-- Sweeping an image finds what sweeping its segments finds. -/
theorem mem_linearSweep_iff : (a, i) ∈ linearSweep image context ↔
    a.segment ∈ image.segmentNumbers ∧ ∃ start stop next,
      image.bounds? a.segment = some (start, stop) ∧ a.offset = Int32.ofNat next
        ∧ (next, i) ∈ sweep (image.foundAt context a.segment) stop start := by
  unfold linearSweep
  rw [List.mem_flatMap]
  constructor
  · intro h
    rcases h with ⟨number, hnumber, hmem⟩
    cases hbounds : image.bounds? number with
    | none =>
        simp only [hbounds] at hmem
        cases hmem
    | some bounds =>
        rcases bounds with ⟨start, stop⟩
        -- The segment is given by its bounds, and the instruction by its offset.
        simp only [hbounds, sweepSegment_eq, List.mem_map] at hmem
        rcases hmem with ⟨⟨next, j⟩, hfound, hplaced⟩
        cases hplaced
        exact ⟨hnumber, start, stop, next, hbounds, rfl, hfound⟩
  · intro h
    rcases h with ⟨hnumber, start, stop, next, hbounds, hoffset, hfound⟩
    refine ⟨a.segment, hnumber, ?_⟩
    simp only [hbounds, sweepSegment_eq, List.mem_map]
    refine ⟨(next, i), hfound, ?_⟩
    rw [placed, ← hoffset]

/-- Sweeping a segment finds instructions of that segment. -/
theorem segment_of_mem_sweepSegment {x : Address × Instruction}
    (h : x ∈ sweepSegment image context number start stop) : x.1.segment = number := by
  rw [sweepSegment_eq] at h
  rcases List.mem_map.mp h with ⟨y, -, rfl⟩
  rfl

/-- The instructions of a segment have ascending addresses, since its offsets have 16 bits. -/
theorem ascending_sweepSegment (h : image.bounds? number = some (start, stop)) :
    Ascending (sweepSegment image context number start stop) := by
  have hstop := (Image.bounds?_eq_some h).1
  rw [sweepSegment_eq]
  refine List.pairwise_map.mpr ?_
  refine (pairwise_sweep _ stop start).imp_of_mem fun {x y} hx hy hlt => ?_
  have hx := (bounds_of_mem_sweep hx).2
  have hy := (bounds_of_mem_sweep hy).2
  have hseg : (placed number x).1.segment = (placed number y).1.segment := rfl
  rw [Address.compare_eq_lt_iff_of_segment_eq hseg]
  simp only [placed]
  rw [Int32.toInt_ofNat_of_lt (by omega), Int32.toInt_ofNat_of_lt (by omega)]
  omega

/-- Sweeping an image finds instructions by ascending address. -/
theorem ascending_linearSweep (image : Image) (context : DecodeContext) :
    Ascending (linearSweep image context) := by
  refine List.pairwise_flatMap.mpr ⟨fun number _ => ?_, ?_⟩
  · cases hbounds : image.bounds? number with
    | none => exact List.Pairwise.nil
    | some bounds => exact ascending_sweepSegment hbounds
  · -- Of two segments, all of the first comes before all of the second.
    refine image.pairwise_segmentNumbers.imp fun {m n} hlt x hx y hy => ?_
    have hm : x.1.segment = m := by
      split at hx
      · cases hx
      · exact segment_of_mem_sweepSegment hx
    have hn : y.1.segment = n := by
      split at hy
      · cases hy
      · exact segment_of_mem_sweepSegment hy
    rw [Address.compare_eq_lt_iff, hm, hn]
    exact Or.inl hlt

end Segments

section Runs

variable {is : List Instruction}

/-- A sweep that starts at a run of instructions finds the run, and what it finds besides lies
    behind. -/
theorem filter_sweep_run (hbounds : image.bounds? number = some (start, stop))
    (hnext : next ≤ 65536)
    (hrun : IsRun (image.instructionAt? context) ⟨number, Int32.ofNat next⟩ is) :
    ((sweep (image.foundAt context number) stop next).filter
      (·.1 < next + Run.size is)).map (placed number)
        = Run.entries ⟨number, Int32.ofNat next⟩ is := by
  induction is generalizing next with
  | nil =>
      have hnone : (sweep (image.foundAt context number) stop next).filter
          (·.1 < next + Run.size []) = [] := by
        rw [List.filter_eq_nil_iff]
        intro x hx
        have hle := (bounds_of_mem_sweep hx).1
        rw [decide_eq_true_eq, Run.size]
        omega
      rw [hnone]
      rfl
  | cons i is ih =>
      rcases Image.instructionAt?_eq_some hrun.1 with ⟨hpos, h0, hend, hspans, -⟩
      -- The run lies in the image, so the sweep has not come to its end.
      have hoffset := Int32.toInt_ofNat_of_lt (n := next) (by omega)
      have hlt : next < stop := by
        have hcontains := hspans ⟨number, Int32.ofNat next⟩ ⟨rfl, by omega, by omega⟩
        have hin := ((Image.bounds?_eq_some hbounds).2 _ rfl).mp hcontains
        simp only [hoffset] at hin
        omega
      have hbehind : i.next ⟨number, Int32.ofNat next⟩
          = ⟨number, Int32.ofNat (next + i.length)⟩ := by
        rw [Instruction.next, Address.advance, Address.offsetBy, Int32.ofNat_add]
      simp only [hoffset] at hend
      have hrest := @ih (next + i.length) (by omega) (hbehind ▸ hrun.2)
      -- The first is found at once, and from behind it the sweep goes on along the run.
      rw [sweep_found hlt hrun.1 hpos, List.filter_cons_of_pos (by
        rw [decide_eq_true_eq, Run.size]
        omega), List.map_cons, Run.entries, hbehind, ← hrest, Run.size, Nat.add_assoc]
      rfl

/-- A sweep that finds an instruction where a run starts finds the run, and nothing else up to
    the end of the run. -/
theorem mem_linearSweep_iff_of_run {first : Instruction}
    (hfirst : (a, first) ∈ linearSweep image context)
    (hrun : IsRun (image.instructionAt? context) a is) {x : Address}
    (hspan : a.Spans (Run.size is) x) :
    (x, i) ∈ linearSweep image context ↔ (x, i) ∈ Run.entries a is := by
  rcases mem_linearSweep_iff.mp hfirst with ⟨hnumber, start, stop, next, hbounds, hoffset, hfound⟩
  rcases a with ⟨number, offset⟩
  rcases x with ⟨number', offset'⟩
  rcases hspan with ⟨hseg, hlo, hhi⟩
  simp only at hnumber hbounds hoffset hfound hseg hlo hhi
  subst hseg hoffset
  have hstop := (Image.bounds?_eq_some hbounds).1
  have hnext := (bounds_of_mem_sweep hfound).2
  rw [Int32.toInt_ofNat_of_lt (by omega)] at hlo hhi
  -- From the start of the run on, the sweep is the one that starts there.
  rw [← filter_sweep_run hbounds (by omega) hrun, ← filter_sweep hfound]
  simp only [List.mem_map, List.mem_filter, decide_eq_true_eq]
  constructor
  · intro h
    rcases mem_linearSweep_iff.mp h with ⟨-, start', stop', mid, hbounds', hmid, hmem⟩
    simp only at hbounds' hmid hmem
    rw [hbounds, Option.some.injEq] at hbounds'
    cases hbounds'
    have hlt := (bounds_of_mem_sweep hmem).2
    rw [hmid, Int32.toInt_ofNat_of_lt (by omega)] at hlo hhi
    refine ⟨(mid, i), ⟨⟨hmem, by omega⟩, by omega⟩, ?_⟩
    rw [placed, ← hmid]
  · intro h
    rcases h with ⟨⟨mid, j⟩, ⟨⟨hmem, -⟩, -⟩, hplaced⟩
    cases hplaced
    exact mem_linearSweep_iff.mpr ⟨hnumber, start, stop, mid, hbounds, rfl, hmem⟩

end Runs

section Analyses

variable {entries : List Address} {options : AnalysisOptions} {cancelled : Nat → Bool}
  {analysis : Analysis} {id : Nat} {b : Block}

/-- Where a sweep of the image finds an instruction at the start of a block, it finds the
    instructions of the block between its ends, and no others. Both decode the same bytes in the
    same way, so once they are in step they stay so for as long as the block lasts. -/
theorem analyzeImage_inStep (hlimit : 1 ≤ options.limits.blockInstructions)
    (h : analyzeImage image context entries options cancelled = .ok analysis)
    (hget : analysis.blocks.get? id = some b) (hi : (b.start, i) ∈ linearSweep image context) :
    (linearSweep image context).filter
        (fun x => b.start.notAfter x.1 ∧ compare x.1 b.stop = .lt)
      = analysis.blockInstructions b := by
  rcases exists_session_of_analyzeImage hlimit h with ⟨s, hs, -, rfl⟩
  have hlaid := hs.laidOut
  rcases hlaid.filled hget with ⟨is, last, hfill⟩
  have hrun := hlaid.isRun_image hfill.run
  have hstop := hfill.stop_eq hlaid.toIndexed
  have hblock : (Analysis.ofSession s options.buildProcedures).blockInstructions b
      = Run.entries b.start (is ++ [last]) := by
    rw [← hlaid.inRange_eq_entries hfill.run, hstop]
    rfl
  -- Between the ends of the block lie the bytes of the run that fills it.
  have hbetween : ∀ x, b.start.notAfter x ∧ compare x b.stop = .lt
      ↔ b.start.Spans (Run.size (is ++ [last])) x := by
    intro x
    rw [← hstop]
    exact (Address.between_iff (Run.stop_segment _ _)).trans (by rw [Run.toInt_stop hrun]; rfl)
  have hascending : Ascending ((linearSweep image context).filter
      (fun x => b.start.notAfter x.1 ∧ compare x.1 b.stop = .lt)) :=
    (ascending_linearSweep image context).filter _
  rw [hblock]
  -- Both lists ascend, so it is enough that they have the same members.
  refine hascending.eq_of_mem_iff (hlaid.ascending_entries hfill.run) fun x j => ?_
  rw [List.mem_filter, decide_eq_true_eq, hbetween x]
  constructor
  · intro hx
    exact (mem_linearSweep_iff_of_run hi hrun hx.2).mp hx.1
  · intro hx
    have hspan := ((hlaid.mem_entries_iff hfill.run).mp hx).2
    exact ⟨(mem_linearSweep_iff_of_run hi hrun hspan).mpr hx, hspan⟩

end Analyses

/-- A jump over a byte that makes no instruction, to a block behind which stands one more
    instruction. -/
def jumpOver : Image := Image.ofBytes #[0xEB, 0x01, 0x0F, 0x90, 0xC3, 0x90] 0

/-- The sweep skips the byte that is jumped over, so it hits upon the block behind. What it finds
    behind the block is not part of it. -/
theorem analyzeImage_inStep_jumpOver :
    (linearSweep jumpOver {}).map (·.1) = [⟨0, 0⟩, ⟨0, 3⟩, ⟨0, 4⟩, ⟨0, 5⟩]
      ∧ ∃ analysis b, analyzeImage jumpOver {} [] {} (fun _ => false) = .ok analysis
        ∧ analysis.blocks.get? 1 = some b ∧ b.start = ⟨0, 3⟩
        ∧ (analysis.blockInstructions b).map (·.1) = [⟨0, 3⟩, ⟨0, 4⟩] := by
  have hsweep : (linearSweep jumpOver {}).map (·.1) = [⟨0, 0⟩, ⟨0, 3⟩, ⟨0, 4⟩, ⟨0, 5⟩] := by
    decide +kernel
  have hfound : (analyzeImage jumpOver {} [] {} (fun _ => false)).toOption.any (fun analysis =>
      (analysis.blocks.get? 1).any fun b => b.start = ⟨0, 3⟩ ∧ b.stop = ⟨0, 5⟩) := by
    decide +kernel
  rcases exists_ok_of_any hfound with ⟨analysis, h, hany⟩
  rcases (Option.any_eq_true _ _).mp hany with ⟨b, hget, hb⟩
  rcases of_decide_eq_true hb with ⟨hstart, hstop⟩
  have hmem : b.start ∈ (linearSweep jumpOver {}).map (·.1) := by
    rw [hsweep, hstart]
    decide
  rcases List.mem_map.mp hmem with ⟨x, hx, hfirst⟩
  have hi : (b.start, x.2) ∈ linearSweep jumpOver {} := by
    rw [← hfirst]
    exact hx
  refine ⟨hsweep, analysis, b, h, hget, hstart, ?_⟩
  rw [← analyzeImage_inStep (by decide) h hget hi, hstart, hstop]
  decide +kernel

end Disasm86
