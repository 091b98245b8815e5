import Disasm86.Proofs.Agreement

/-!
# What a Sweep Covers

A sweep leaves nothing out that could be decoded. It stands at an offset, and either an instruction
starts there and the sweep goes on behind it, or none does and one byte is skipped. So every byte of
the range belongs to an instruction that has been found, or the sweep has stood there and found
none; and no byte belongs to two.

That is said of offsets and of one sweep first. Segments are swept one by one, in chunks, and the
chunks are joined, but none of that matters here: a segment is swept as if at once, by
`sweepSegment_eq`, and bytes of different segments have different addresses.

The numbers of segments have 31 bits, and so has the number of segments. An image with more of them
could not be swept, which is why completeness asks for the number.

## Main definitions

* `Image.CoveredBy`: What instructions have to do with an image to cover it.

## Theorems

* `found_of_mem_sweep`: A sweep finds what there is.
* `le_of_mem_sweep`: A sweep goes on behind an instruction.
* `exists_mem_sweep_or_skips`: A sweep misses no instruction.
* `instructionAt?_of_mem_linearSweep`: What sweeping an image finds is an instruction of the image.
* `within_of_mem_linearSweep`: An instruction of a sweep ends within its segment.
* `le_of_mem_linearSweep`: It ends before the next one of the segment starts.
* `exists_mem_linearSweep`: What can be decoded belongs to an instruction of the sweep.
* `coveredBy_linearSweep`: Sweeping covers an image.
-/

namespace Disasm86

/-- The instructions, in the order in which they are listed, cover the image. -/
structure Image.CoveredBy (image : Image) (context : DecodeContext)
    (found : List (Address × Instruction)) : Prop where
  ascending : Ascending found
  /-- No two of them share a byte. -/
  disjoint : found.Pairwise fun x y => ∀ a, x.1.Spans x.2.length a → ¬ y.1.Spans y.2.length a
  /-- They end within their segments. -/
  within : ∀ x ∈ found, ∃ start stop, image.bounds? x.1.segment = some (start, stop)
    ∧ (start : Int) ≤ x.1.offset.toInt ∧ x.1.offset.toInt + x.2.length ≤ stop
  /-- They are what the rest of the segment decodes to. -/
  decoded : ∀ x ∈ found, ∃ tail, image.tail? x.1 = some tail ∧ decode context tail = .ok x.2
  /-- Where nothing has been found, nothing can be decoded. -/
  complete : image.segments.size < 0x80000000 → ∀ a, image.contains a →
    (∀ x ∈ found, ¬ x.1.Spans x.2.length a) →
      ∃ tail e, image.tail? a = some tail ∧ decode context tail = .error e

section Offsets

variable {at? : Nat → Option Instruction} {stop next n : Nat} {x y : Nat × Instruction}

/-- Whatever a sweep finds has been decoded there and is not empty. -/
theorem found_of_mem_sweep (h : x ∈ sweep at? stop next) :
    at? x.1 = some x.2 ∧ 0 < x.2.length := by
  fun_induction sweep at? stop next with
  | case1 next hlt hnone ih => exact ih h
  | case2 next hlt i hi hpos ih =>
      rcases List.mem_cons.mp h with rfl | h
      · exact ⟨hi, hpos⟩
      · exact ih h
  | case3 next hlt i hi hzero ih => exact ih h
  | case4 next hge => cases h

/-- Of two instructions that a sweep finds, the first ends before the second starts. -/
theorem le_of_mem_sweep (hx : x ∈ sweep at? stop next) (hy : y ∈ sweep at? stop next)
    (hlt : x.1 < y.1) : x.1 + x.2.length ≤ y.1 := by
  fun_induction sweep at? stop next with
  | case1 next hstop hnone ih => exact ih hx hy
  | case2 next hstop i hi hpos ih =>
      rcases List.mem_cons.mp hx with rfl | hx
      · rcases List.mem_cons.mp hy with rfl | hy
        · exact absurd hlt (Nat.lt_irrefl _)
        · exact (bounds_of_mem_sweep hy).1
      · have hbehind := (bounds_of_mem_sweep hx).1
        rcases List.mem_cons.mp hy with rfl | hy
        · simp only at hlt
          omega
        · exact ih hx hy
  | case3 next hstop i hi hzero ih => exact ih hx hy
  | case4 next hge => cases hx

/-- Every offset of the range belongs to an instruction of the sweep, or none starts there. -/
theorem exists_mem_sweep_or_skips (hle : next ≤ n) (hlt : n < stop) :
    (∃ x ∈ sweep at? stop next, x.1 ≤ n ∧ n < x.1 + x.2.length) ∨ Skips at? n := by
  -- A byte that is skipped is left behind, unless it is the one that is asked for.
  fun_induction sweep at? stop next with
  | case1 next hstop hnone ih =>
      by_cases heq : next = n
      · rw [← heq]
        exact Or.inr (skips_of_none hnone)
      · exact ih (by omega)
  | case2 next hstop i hi hpos ih =>
      by_cases hin : n < next + i.length
      · exact Or.inl ⟨(next, i), List.mem_cons_self, hle, hin⟩
      · rcases ih (by omega) with ⟨x, hx, hspan⟩ | hskips
        · exact Or.inl ⟨x, List.mem_cons_of_mem _ hx, hspan⟩
        · exact Or.inr hskips
  | case3 next hstop i hi hzero ih =>
      by_cases heq : next = n
      · rw [← heq]
        exact Or.inr (skips_of_empty hi hzero)
      · exact ih (by omega)
  | case4 next hge => omega

end Offsets

section Images

variable {image : Image} {context : DecodeContext} {a : Address} {i : Instruction}

/-- Every segment has a number, as long as the numbers suffice. -/
theorem Image.mem_segmentNumbers (hcount : image.segments.size < 0x80000000) {number : Int32}
    {segment : Segment} (h : image.segment? number = some segment) :
    number ∈ image.segmentNumbers := by
  unfold segment? at h
  by_cases hneg : number < 0
  · rw [if_pos hneg] at h
    cases h
  · rw [if_neg hneg] at h
    rw [Int32.lt_iff_toInt_lt, Int32.toInt_zero] at hneg
    rcases Array.getElem?_eq_some_iff.mp h with ⟨hlt, -⟩
    refine List.mem_map.mpr ⟨number.toInt.toNat, List.mem_range.mpr ?_, ?_⟩
    · rw [Int32.toInt_ofNat_of_lt hcount]
      exact hlt
    · rw [← Int32.toInt_inj, Int32.toInt_ofNat_of_lt (by omega)]
      omega

/-- Where a byte of the image makes no instruction, decoding fails. -/
theorem Image.decode_eq_error (hcontains : image.contains a)
    (h : image.instructionAt? context a = none) :
    ∃ tail e, image.tail? a = some tail ∧ decode context tail = .error e := by
  rcases (Option.any_eq_true _ _).mp hcontains with ⟨segment, hs, hcovers⟩
  have hwindow : ∃ code, image.window? a = some code := by
    simp only [window?, hs, hcovers, if_true, Option.some.injEq, exists_eq']
  rcases hwindow with ⟨code, hcode⟩
  rcases exists_tail_of_window? hcode with ⟨tail, htail, hsame⟩
  cases hdecode : decode context code with
  | error e => exact ⟨tail, e, htail, by rw [← hsame, hdecode]⟩
  | ok i =>
      rw [instructionAt?_eq_some_iff.mpr ⟨code, hcode, hdecode⟩] at h
      cases h

/-- So sweeping an image finds instructions of the image. -/
theorem instructionAt?_of_mem_linearSweep (h : (a, i) ∈ linearSweep image context) :
    image.instructionAt? context a = some i := by
  rcases mem_linearSweep_iff.mp h with ⟨-, start, stop, next, -, hoffset, hmem⟩
  have hfound := (found_of_mem_sweep hmem).1
  rw [Image.foundAt, ← hoffset] at hfound
  exact hfound

/-- An instruction of a sweep ends within its segment. -/
theorem within_of_mem_linearSweep (h : (a, i) ∈ linearSweep image context) :
    ∃ start stop, image.bounds? a.segment = some (start, stop)
      ∧ (start : Int) ≤ a.offset.toInt ∧ a.offset.toInt + i.length ≤ stop := by
  rcases Image.instructionAt?_eq_some (instructionAt?_of_mem_linearSweep h)
    with ⟨hpos, h0, hend, hspans, -⟩
  rcases mem_linearSweep_iff.mp h with ⟨-, start, stop, -, hbounds, -, -⟩
  have hin := (Image.bounds?_eq_some hbounds).2
  refine ⟨start, stop, hbounds, ?_, ?_⟩
  · exact ((hin a rfl).mp (hspans a (Address.spans_self hpos))).1
  · -- The last byte lies in the segment as well.
    have hlast : (Int32.ofNat (a.offset.toInt.toNat + i.length - 1)).toInt
        = a.offset.toInt + i.length - 1 := by
      rw [Int32.toInt_ofNat_of_lt (by omega)]
      omega
    have hstop := ((hin ⟨a.segment, Int32.ofNat (a.offset.toInt.toNat + i.length - 1)⟩ rfl).mp
      (hspans _ ⟨rfl, by rw [hlast]; omega, by rw [hlast]; omega⟩)).2
    rw [hlast] at hstop
    omega

/-- An instruction of a sweep ends before the next one of the segment starts. -/
theorem le_of_mem_linearSweep {b : Address} {j : Instruction}
    (ha : (a, i) ∈ linearSweep image context) (hb : (b, j) ∈ linearSweep image context)
    (hseg : a.segment = b.segment) (hlt : a.offset.toInt < b.offset.toInt) :
    a.offset.toInt + i.length ≤ b.offset.toInt := by
  rcases mem_linearSweep_iff.mp ha with ⟨-, start, stop, next, hbounds, hnext, hi⟩
  rcases mem_linearSweep_iff.mp hb with ⟨-, start', stop', next', hbounds', hnext', hj⟩
  rw [hseg] at hbounds hi
  rw [hbounds, Option.some.injEq] at hbounds'
  cases hbounds'
  have hstop := (Image.bounds?_eq_some hbounds).1
  have hle := (bounds_of_mem_sweep hi).2
  have hle' := (bounds_of_mem_sweep hj).2
  -- The offsets are those of the sweep, since they are too small to wrap.
  have hoffset : a.offset.toInt = next := by
    rw [hnext, Int32.toInt_ofNat_of_lt (by omega)]
  have hoffset' : b.offset.toInt = next' := by
    rw [hnext', Int32.toInt_ofNat_of_lt (by omega)]
  have hbehind : next + i.length ≤ next' := le_of_mem_sweep hi hj (by omega : next < next')
  omega

/-- A byte of the image belongs to an instruction of the sweep, or none starts there. -/
theorem exists_mem_linearSweep (hcount : image.segments.size < 0x80000000)
    (h : image.contains a) : (∃ x ∈ linearSweep image context, x.1.Spans x.2.length a)
      ∨ image.instructionAt? context a = none := by
  rcases Image.contains_iff.mp h with ⟨segment, hs, hlo, hhi⟩
  have hbounds : image.bounds? a.segment = some (segment.start, segment.stop) := by
    rw [Image.bounds?, hs]
    rfl
  have hstop := (Image.bounds?_eq_some hbounds).1
  -- Addresses and offsets are the same here, because the image has no negative ones.
  have hoffset : Int32.ofNat a.offset.toInt.toNat = a.offset := by
    rw [← Int32.toInt_inj, Int32.toInt_ofNat_of_lt (by omega)]
    omega
  have hlo' : segment.start ≤ a.offset.toInt.toNat := by omega
  have hhi' : a.offset.toInt.toNat < segment.stop := by omega
  rcases @exists_mem_sweep_or_skips (image.foundAt context a.segment) _ _ _ hlo' hhi'
    with ⟨⟨next, i⟩, hmem, hle, hlt⟩ | hskips
  · refine Or.inl ⟨(⟨a.segment, Int32.ofNat next⟩, i), ?_, rfl, ?_⟩
    · exact mem_linearSweep_iff.mpr ⟨Image.mem_segmentNumbers hcount hs, _, _, next, hbounds, rfl,
        hmem⟩
    · simp only at hle hlt ⊢
      rw [Int32.toInt_ofNat_of_lt (by omega)]
      omega
  · -- An instruction of an image is not empty, so what is skipped is none.
    refine Or.inr (Option.eq_none_iff_forall_ne_some.mpr fun i hi => ?_)
    have hpos := (Image.instructionAt?_eq_some hi).1
    have hzero := hskips i (by rw [Image.foundAt, hoffset]; exact hi)
    omega

/-- Sweeping an image covers it. Nothing overlaps, every instruction is what the rest of its segment
    decodes to, and a byte that belongs to none is one where decoding fails. -/
theorem coveredBy_linearSweep (image : Image) (context : DecodeContext) :
    image.CoveredBy context (linearSweep image context) where
  ascending := ascending_linearSweep image context
  disjoint := by
    refine (ascending_linearSweep image context).imp_of_mem fun {x y} hx hy hlt a ha ha' => ?_
    -- Only instructions of the same segment can share a byte, and there one ends before the other.
    have hseg := ha.1.symm.trans ha'.1
    have hle := le_of_mem_linearSweep hx hy hseg
      ((Address.compare_eq_lt_iff_of_segment_eq hseg).mp hlt)
    have hbefore := ha.2.2
    have hbehind := ha'.2.1
    omega
  within := fun x hx => within_of_mem_linearSweep hx
  decoded := fun x hx =>
    (Image.instructionAt?_eq_some (instructionAt?_of_mem_linearSweep hx)).2.2.2.2.2
  complete := by
    intro hcount a hcontains hnone
    rcases exists_mem_linearSweep hcount hcontains with ⟨x, hx, hspan⟩ | hundecodable
    · exact absurd hspan (hnone x hx)
    · exact Image.decode_eq_error hcontains hundecodable

end Images

/-- Two segments, of which the second ends in the middle of an instruction. -/
def cutShort : Image := (Image.ofBytes #[0x90, 0xC3] 0x100).addSegment 0xFFFE #[0xC3, 0xB8]

/-- The byte that is left over at the very end makes no instruction. -/
theorem coveredBy_cutShort :
    (linearSweep cutShort {}).map (·.1) = [⟨0, 0x100⟩, ⟨0, 0x101⟩, ⟨1, 0xFFFE⟩]
      ∧ cutShort.contains ⟨1, 0xFFFF⟩
      ∧ ∃ tail e, cutShort.tail? ⟨1, 0xFFFF⟩ = some tail ∧ decode {} tail = .error e :=
  ⟨by decide +kernel, by decide +kernel,
    (coveredBy_linearSweep cutShort {}).complete (by decide +kernel) _ (by decide +kernel)
      (by decide +kernel)⟩

end Disasm86
