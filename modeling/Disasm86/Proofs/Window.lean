import Disasm86.Proofs.Span
import Disasm86.Proofs.Truncation
import Disasm86.Sweep

/-!
# Instructions of an Image

What it means that an image has an instruction at an address, told without windows.

Decoding is shown a window, the front of the bytes from an address to the end of its
segment. That is a matter of speed: the window is a front part of those bytes and has
room for the longest instruction, so by `decode_take` all of them decode to the same.
`instructionAt?_eq_some` collects what every later argument uses. The instruction is
not empty, its bytes are those of the image, and all of them lie inside the segment, so
its end is an offset far below the bounds of 32-bit arithmetic.

## Theorems

* `Image.contains_iff`: The bytes of an image by segment and offset.
* `Image.bounds_of_contains`: Offsets of an image have 16 bits.
* `Image.isSomewhere_of_contains`: A byte of an image has an address.
* `Image.contains_of_window?`: A window starts at a byte of the image.
* `Image.exists_tail_of_window?`: A window is as good as the rest of its segment.
* `Image.instructionAt?_eq_some`: The bytes of an instruction of an image.
* `Image.bytes?_eq_some_iff`, `Image.bytes?_eq_some`: Bytes that can be read, and that they lie in
  the image.
* `Image.toInt_next`: The end of an instruction of an image.
-/

namespace Disasm86

namespace Image

variable {image : Image} {context : DecodeContext} {a : Address} {i : Instruction}

/-- An address is in the image if its segment covers it. -/
theorem contains_iff : image.contains a ↔ ∃ s, image.segment? a.segment = some s
    ∧ (s.start : Int) ≤ a.offset.toInt ∧ a.offset.toInt < s.stop := by
  simp only [contains, Option.any_eq_true, Segment.covers, Bool.and_eq_true, decide_eq_true_eq]

/-- A segment ends within 64 KiB, so the offsets of an image are short and not negative. -/
theorem bounds_of_contains (h : image.contains a) :
    0 ≤ a.offset.toInt ∧ a.offset.toInt < 65536 := by
  rcases contains_iff.mp h with ⟨s, -, h1, h2⟩
  have hfits := s.fits
  simp only [Segment.start, Segment.stop, segmentSize] at h1 h2 hfits
  omega

/-- No image covers the address that stands for nowhere. -/
theorem isSomewhere_of_contains (h : image.contains a) : a.isSomewhere :=
  Address.isSomewhere_of_nonneg (bounds_of_contains h).1

/-- There is a window only at addresses of the image. -/
theorem contains_of_window? {code : List UInt8} (h : image.window? a = some code) :
    image.contains a := by
  unfold window? at h
  cases hs : image.segment? a.segment with
  | none => simp only [hs, reduceCtorEq] at h
  | some s =>
      simp only [hs] at h
      by_cases hc : s.covers a.offset
      · simp only [contains, hs, Option.any_some, hc]
      · rw [if_neg hc] at h
        cases h

/-- A window decodes to what the rest of its segment decodes to. -/
theorem exists_tail_of_window? {code : List UInt8} (h : image.window? a = some code) :
    ∃ tail, image.tail? a = some tail
      ∧ ∀ context, decode context code = decode context tail := by
  have hcontains := contains_of_window? h
  unfold contains at hcontains
  rcases (Option.any_eq_true _ _).mp hcontains with ⟨s, hs, hcovers⟩
  simp only [window?, hs, hcovers, if_true, Option.some.injEq] at h
  generalize hfirst : (a.offset.toInt - s.start).toNat = first at h
  refine ⟨s.data.toList.drop first, ?_, fun context => ?_⟩
  · have hlength : (s.data.toList.drop first).length = s.data.size - first := by
      rw [List.length_drop, Array.length_toList]
    simp only [tail?, hs, hcovers, if_true, hfirst]
    rw [Array.toList_extract, List.extract_eq_take_drop, List.take_of_length_le (by omega)]
  -- The window is as long as the longest instruction, and the decoder reads no further.
  · rw [← h, Array.toList_extract, List.extract_eq_take_drop, Nat.add_sub_cancel_left]
    exact decode_take (by decide) context _

/-- An instruction is found where its window decodes. -/
theorem instructionAt?_eq_some_iff : image.instructionAt? context a = some i ↔
    ∃ code, image.window? a = some code ∧ decode context code = .ok i := by
  unfold instructionAt?
  cases hw : image.window? a with
  | none => simp only [reduceCtorEq, false_and, exists_false]
  | some code =>
      cases hd : decode context code with
      | error e => simp [hd, Except.toOption]
      | ok j => simp [hd, Except.toOption]

/-- An instruction of an image is not empty and lies inside its segment. Its bytes are
    those of the image, and decoding all that is left of the segment gives it as well. -/
theorem instructionAt?_eq_some (h : image.instructionAt? context a = some i) :
    0 < i.length ∧ 0 ≤ a.offset.toInt ∧ a.offset.toInt + i.length ≤ 65536
      ∧ (∀ b, a.Spans i.length b → image.contains b)
      ∧ image.bytes? a i.length = some i.bytes
      ∧ ∃ tail, image.tail? a = some tail ∧ decode context tail = .ok i := by
  rcases instructionAt?_eq_some_iff.mp h with ⟨code, hw, hd⟩
  rcases contains_iff.mp (contains_of_window? hw) with ⟨s, hs, hlo, hhi⟩
  rcases decode_eq_ok hd with ⟨hpos, hle, hbytes, -⟩
  have hfits := s.fits
  have hcovers : s.covers a.offset := by
    simp only [Segment.covers, Bool.and_eq_true, decide_eq_true_eq]
    exact ⟨hlo, hhi⟩
  -- Everything is about the bytes from the address to the end of its segment.
  generalize hfirst : (a.offset.toInt - s.start).toNat = first at *
  have hcode : code = (s.data.toList.drop first).take windowSize := by
    simp only [window?, hs, hcovers, if_true, hfirst, Option.some.injEq] at hw
    rw [← hw, Array.toList_extract, List.extract_eq_take_drop, Nat.add_sub_cancel_left]
  -- The decoder has seen the whole instruction, so it lies in the window and in the segment.
  have hroom : i.length ≤ s.data.size - first := by
    rw [hcode, List.length_take, List.length_drop, Array.length_toList] at hle
    omega
  have hbytes' : i.bytes = (s.data.toList.drop first).take i.length := by
    have hlen : i.length ≤ windowSize := by
      rw [hcode, List.length_take] at hle
      omega
    rw [hbytes, hcode, List.take_take, Nat.min_eq_left hlen]
  have hstop : s.stop = s.start + s.data.size := rfl
  have hsize : s.start + s.data.size ≤ 65536 := hfits
  refine ⟨hpos, by omega, by omega, fun b hb => ?_, ?_, ?_⟩
  · have hb1 := hb.2.1
    have hb2 := hb.2.2
    exact contains_iff.mpr ⟨s, by rw [hb.1]; exact hs, by omega, by omega⟩
  · unfold bytes?
    simp only [hs, hfirst]
    rw [if_neg (by omega), if_pos (by omega), hbytes', Array.toList_extract,
      List.extract_eq_take_drop, Nat.add_sub_cancel_left]
  · rcases exists_tail_of_window? hw with ⟨tail, htail, hsame⟩
    exact ⟨tail, htail, by rw [← hsame, hd]⟩

/-- Bytes can be read where the segment has that many behind the address. -/
theorem bytes?_eq_some_iff {n : Nat} {word : List UInt8} :
    image.bytes? a n = some word ↔ ∃ s, image.segment? a.segment = some s
    ∧ (s.start : Int) ≤ a.offset.toInt ∧ (a.offset.toInt - s.start).toNat + n ≤ s.data.size
    ∧ word = (s.data.extract (a.offset.toInt - s.start).toNat
      ((a.offset.toInt - s.start).toNat + n)).toList := by
  unfold bytes?
  cases image.segment? a.segment with
  | none => simp only [reduceCtorEq, false_and, exists_false]
  | some s =>
      by_cases hlo : a.offset.toInt < s.start
      · simp only [Option.some.injEq, exists_eq_left', if_pos hlo, reduceCtorEq, false_iff]
        omega
      · by_cases hroom : (a.offset.toInt - s.start).toNat + n ≤ s.data.size
        · simp only [Option.some.injEq, exists_eq_left', if_neg hlo, hroom, if_true, true_and,
            Int.not_lt.mp hlo]
          exact eq_comm
        · simp only [Option.some.injEq, exists_eq_left', if_neg hlo, hroom, if_false, reduceCtorEq,
            false_and, and_false]

/-- Bytes that can be read lie inside their segment. -/
theorem bytes?_eq_some {n : Nat} {word : List UInt8} (h : image.bytes? a n = some word) :
    0 ≤ a.offset.toInt ∧ a.offset.toInt + n ≤ 65536 ∧ ∀ b, a.Spans n b → image.contains b := by
  rcases bytes?_eq_some_iff.mp h with ⟨s, hs, hlo, hroom, -⟩
  have hstop : s.stop = s.start + s.data.size := rfl
  have hfits : s.start + s.data.size ≤ 65536 := s.fits
  refine ⟨by omega, by omega, fun b hb => ?_⟩
  have hb1 := hb.2.1
  have hb2 := hb.2.2
  exact contains_iff.mpr ⟨s, by rw [hb.1]; exact hs, by omega, by omega⟩

/-- The end of an instruction of an image, as a number. -/
theorem toInt_next (h : image.instructionAt? context a = some i) :
    (i.next a).offset.toInt = a.offset.toInt + i.length := by
  rcases instructionAt?_eq_some h with ⟨-, h0, hend, -⟩
  exact Address.toInt_advance h0 (by omega)

end Image

end Disasm86
