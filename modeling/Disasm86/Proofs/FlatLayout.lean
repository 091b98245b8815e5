import Disasm86.Proofs.Window

/-!
# The Layout of Flat Images

A flat image and the offset it begins at are one row of places. The byte with index `k` has the
place `base + k`, and the row is cut at every multiple of the segment size. So the number of the
segment of a place is a quotient and the offset in it is a remainder, also for the first segment,
which begins in the middle of its offsets.

Segments are not numbered without end: an address has 31 bits for the number. A row can be longer
than that, and then the bytes behind have no address. `placeAddress?` says which, and with that no
statement needs a bound on the size of the image.

What can be read at an address is a matter of its segment alone and holds for every image. Only
which bytes these are needs the layout.

## Main definitions

* `Image.flatSegment`: The segment of a flat image with some number.
* `Image.placeAddress?`, `Image.flatAddress?`: The address of a place and of an index.
* `Image.FlatLayout`: An image has some bytes in a row and can be read like them.

## Theorems

* `Image.getElem?_wholeSegments`, `Image.flatMap_wholeSegments`: The pieces that bytes are cut into.
* `Image.contains_iff_bytes?`, `Image.isSome_bytes?_iff_contains`: What can be read.
* `Image.tail?_eq_bytes?`: The rest of a segment is read like any other bytes.
* `Image.segments_ofBytes`: The segments of a flat image.
* `Image.getElem?_flatSegment`: A byte of a segment has its place in the row.
* `Image.placeAddress?_eq_some_iff`: The numbers of an address give its place.
* `Image.contains_ofBytes_iff`: Which addresses a flat image has.
* `Image.flatLayout_ofBytes`: Flat bytes are laid out without loss.
-/

namespace Disasm86

/-- A segment takes the bytes that fit behind its base and leaves the rest. -/
theorem Segment.data_ofBytes (base : UInt16) (data : Array UInt8) :
    (Segment.ofBytes base data).data = data.extract 0 (segmentSize - base.toNat) := rfl

theorem Segment.data_ofBytes_of_le {base : UInt16} {data : Array UInt8}
    (h : base.toNat + data.size ≤ segmentSize) : (Segment.ofBytes base data).data = data :=
  Array.extract_eq_self_of_le (by omega)

theorem Segment.ofBytes_congr {base : UInt16} {data data' : Array UInt8}
    (h : data.extract 0 (segmentSize - base.toNat) = data'.extract 0 (segmentSize - base.toNat)) :
    Segment.ofBytes base data = Segment.ofBytes base data' := by
  simp only [Segment.ofBytes, h]

namespace Image

variable {image : Image} {data : Array UInt8} {base : UInt16} {a : Address} {n : Nat}
  {s : Segment} {word : List UInt8}

section Pieces

theorem extract_min_size (data : Array UInt8) (i j : Nat) :
    data.extract i (min j data.size) = data.extract i j := by
  refine Array.ext (by simp only [Array.size_extract]; omega) fun k h1 h2 => ?_
  rw [Array.getElem_extract, Array.getElem_extract]

theorem toList_extract_append (data : Array UInt8) (m : Nat) :
    (data.extract 0 m).toList ++ (data.extract m data.size).toList = data.toList := by
  rw [← Array.toList_append, Array.extract_append_extract, Nat.zero_min,
    Array.extract_eq_self_of_le (Nat.le_max_right _ _)]

/-- The pieces that the rest of an image is cut into, by their numbers. The induction is that of
    `wholeSegments`, which cuts off one piece after the other. -/
theorem getElem?_wholeSegments (data : Array UInt8) (n : Nat) :
    (wholeSegments data)[n]? = if n * segmentSize < data.size then
      some (data.extract (n * segmentSize) (n * segmentSize + segmentSize)) else none := by
  fun_induction wholeSegments data generalizing n with
  | case1 data hpos ih =>
      cases n with
      | zero => rw [List.getElem?_cons_zero, Nat.zero_mul, if_pos hpos, Nat.zero_add]
      | succ n =>
          -- The other pieces are those of the rest, one segment size further on.
          have hrest : (n + 1) * segmentSize = segmentSize + n * segmentSize := by
            rw [Nat.succ_mul, Nat.add_comm]
          rw [List.getElem?_cons_succ, ih, Array.size_extract, Nat.min_self, Array.extract_extract,
            extract_min_size, hrest, ← Nat.add_assoc]
          simp only [Nat.lt_sub_iff_add_lt, Nat.add_comm]
  | case2 data hempty =>
      rw [List.getElem?_nil, if_neg (by omega)]

/-- Put together, the pieces are the bytes. None of them is longer than a segment, so nothing is
    lost when they become segments. -/
theorem flatMap_wholeSegments (data : Array UInt8) :
    (wholeSegments data).flatMap (fun piece => (Segment.ofBytes 0 piece).data.toList)
      = data.toList := by
  fun_induction wholeSegments data with
  | case1 data hpos ih =>
      have hfits : UInt16.toNat 0 + (data.extract 0 segmentSize).size ≤ segmentSize := by
        rw [UInt16.toNat_zero, Array.size_extract]
        omega
      rw [List.flatMap_cons, ih, Segment.data_ofBytes_of_le hfits, toList_extract_append]
  | case2 data hempty =>
      rw [List.flatMap_nil, eq_comm, Array.toList_eq_nil_iff]
      exact Array.eq_empty_of_size_eq_zero (by omega)

/-- Segments are added at the end, in the order of their pieces. -/
theorem toList_segments_foldl (image : Image) (pieces : List (Array UInt8)) :
    (pieces.foldl (fun image piece => image.addSegment 0 piece) image).segments.toList
      = image.segments.toList ++ pieces.map (Segment.ofBytes 0) := by
  induction pieces generalizing image with
  | nil => rw [List.foldl_nil, List.map_nil, List.append_nil]
  | cons piece pieces ih =>
      rw [List.foldl_cons, ih, addSegment, Array.toList_push, List.map_cons, List.append_assoc,
        List.singleton_append]

/-- The first segment starts at the base, all others at their first offset. -/
theorem toList_segments_ofBytes (data : Array UInt8) (base : UInt16) :
    (ofBytes data base).segments.toList
      = Segment.ofBytes base (data.extract 0 (segmentSize - base.toNat))
        :: (wholeSegments (data.extract (segmentSize - base.toNat) data.size)).map
          (Segment.ofBytes 0) := by
  rw [ofBytes, toList_segments_foldl]
  rfl

end Pieces

section Reading

theorem segment?_eq_some_iff {number : Int32} : image.segment? number = some s ↔
    0 ≤ number.toInt ∧ image.segments[number.toInt.toNat]? = some s := by
  have hneg : number < 0 ↔ number.toInt < 0 := Int32.lt_iff_toInt_lt
  simp only [segment?, hneg]
  split
  · simp only [reduceCtorEq, false_iff]
    omega
  · rw [iff_and_self]
    omega

/-- Bytes can be read if all of them are in one segment. -/
theorem isSome_bytes?_iff : (image.bytes? a n).isSome ↔ ∃ s, image.segment? a.segment = some s
    ∧ (s.start : Int) ≤ a.offset.toInt ∧ (a.offset.toInt - s.start).toNat + n ≤ s.data.size := by
  simp only [Option.isSome_iff_exists, bytes?_eq_some_iff]
  constructor
  · rintro ⟨word, s, hs, hlo, hroom, -⟩
    exact ⟨s, hs, hlo, hroom⟩
  · rintro ⟨s, hs, hlo, hroom⟩
    exact ⟨_, s, hs, hlo, hroom, rfl⟩

/-- A byte can be read at every address of the image. -/
theorem contains_iff_bytes? : image.contains a ↔ (image.bytes? a 1).isSome := by
  rw [contains_iff, isSome_bytes?_iff]
  refine exists_congr fun s => and_congr_right fun _ => and_congr_right fun hlo => ?_
  rw [Segment.stop, Segment.start] at *
  omega

/-- Bytes can be read where each of them is in the image. -/
theorem isSome_bytes?_iff_contains (hn : 0 < n) :
    (image.bytes? a n).isSome ↔ ∀ i < n, image.contains (a.advance i) := by
  constructor
  · intro h i hi
    rcases Option.isSome_iff_exists.mp h with ⟨word, hword⟩
    rcases bytes?_eq_some hword with ⟨h0, hend, hall⟩
    have hoffset := Address.toInt_advance h0 (n := i) (by omega)
    exact hall _ ⟨rfl, by omega, by omega⟩
  · intro hall
    have hself : image.contains a := by
      rw [← Address.advance_zero a]
      exact hall 0 hn
    have hbounds := bounds_of_contains hself
    rcases contains_iff.mp hself with ⟨s, hs, hlo, hhi⟩
    refine isSome_bytes?_iff.mpr ⟨s, hs, hlo, ?_⟩
    -- Otherwise the first byte past the segment would be one of them.
    refine Nat.le_of_not_lt fun hroom => ?_
    have hfits : s.start + s.data.size ≤ 65536 := s.fits
    have hstop : s.stop = s.start + s.data.size := rfl
    have hpast := hall (s.stop - a.offset.toInt).toNat (by omega)
    rcases contains_iff.mp hpast with ⟨s', hs', -, hbefore⟩
    rw [Address.advance_segment, hs] at hs'
    cases hs'
    rw [Address.toInt_advance hbounds.1 (by omega)] at hbefore
    omega

/-- There is a rest of the segment at every address of the image, and nowhere else. -/
theorem isSome_tail?_iff : (image.tail? a).isSome ↔ image.contains a := by
  unfold tail? contains
  cases image.segment? a.segment with
  | none => simp
  | some s => by_cases hs : s.covers a.offset <;> simp [hs]

/-- The rest of the segment is what can be read up to its end. -/
theorem tail?_eq_bytes? (h : image.contains a) : ∃ start stop,
    image.bounds? a.segment = some (start, stop) ∧ a.offset.toInt < stop
      ∧ image.tail? a = image.bytes? a (stop - a.offset.toInt).toNat := by
  rcases contains_iff.mp h with ⟨s, hs, hlo, hhi⟩
  have hcovers : s.covers a.offset := by
    simp only [Segment.covers, Bool.and_eq_true, decide_eq_true_eq]
    exact ⟨hlo, hhi⟩
  have hstop : s.stop = s.start + s.data.size := rfl
  have hcount : (a.offset.toInt - s.start).toNat + (s.stop - a.offset.toInt).toNat
      = s.data.size := by omega
  refine ⟨s.start, s.stop, by rw [bounds?, hs]; rfl, hhi, ?_⟩
  simp only [tail?, bytes?, hs, if_pos hcovers, hcount, Nat.le_refl, if_true,
    if_neg (Int.not_lt.mpr hlo)]

end Reading

section Segments

/-- The segment of a flat image with some number, if it has any bytes of the image. -/
def flatSegment (data : Array UInt8) (base : UInt16) (n : Nat) : Segment :=
  Segment.ofBytes (if n = 0 then base else 0)
    (data.extract (n * segmentSize - base.toNat) data.size)

/-- The segments of a flat image by their numbers. There is always a first one, and the others are
    there if they have a byte. -/
theorem segments_ofBytes (data : Array UInt8) (base : UInt16) (n : Nat) :
    (ofBytes data base).segments[n]? =
      if n = 0 ∨ n * segmentSize < base.toNat + data.size then some (flatSegment data base n)
      else none := by
  have hbase : base.toNat < segmentSize := base.toNat_lt
  rw [← Array.getElem?_toList, toList_segments_ofBytes]
  cases n with
  | zero =>
      rw [List.getElem?_cons_zero, if_pos (Or.inl rfl), flatSegment, if_pos rfl]
      refine congrArg some (Segment.ofBytes_congr ?_)
      rw [Array.extract_extract, Nat.zero_mul, Nat.zero_sub, Array.extract_size, Nat.add_zero,
        Nat.zero_add (segmentSize - base.toNat), Nat.min_self]
  | succ n =>
      -- The first segment has taken what fits, and the pieces are cut from there on.
      have hplace : (n + 1) * segmentSize - base.toNat
          = segmentSize - base.toNat + n * segmentSize := by
        rw [Nat.succ_mul]
        omega
      rw [List.getElem?_cons_succ, List.getElem?_map, getElem?_wholeSegments, flatSegment,
        if_neg (Nat.succ_ne_zero n), hplace, Array.size_extract, Nat.min_self]
      by_cases h : n * segmentSize < data.size - (segmentSize - base.toNat)
      · rw [if_pos h, if_pos (Or.inr (by rw [Nat.succ_mul]; omega)), Option.map_some]
        refine congrArg some (Segment.ofBytes_congr ?_)
        rw [UInt16.toNat_zero, Nat.sub_zero, Array.extract_extract, Array.extract_extract,
          Array.extract_extract, extract_min_size, extract_min_size, Nat.min_self, Nat.add_zero,
          Nat.add_zero, Nat.add_assoc]
      · rw [if_neg h, if_neg (by rw [Nat.succ_mul]; omega), Option.map_none]

theorem segments_ofBytes_eq_some_iff : (ofBytes data base).segments[n]? = some s ↔
    (n = 0 ∨ n * segmentSize < base.toNat + data.size) ∧ s = flatSegment data base n := by
  rw [segments_ofBytes]
  split <;> rename_i h
  · simp only [h, true_and, Option.some.injEq, eq_comm]
  · simp only [h, false_and, reduceCtorEq]

/-- Only the first segment may begin in the middle. -/
theorem start_flatSegment (data : Array UInt8) (base : UInt16) (n : Nat) :
    (flatSegment data base n).start = if n = 0 then base.toNat else 0 := by
  unfold flatSegment Segment.start Segment.ofBytes
  split <;> rfl

/-- The flat indices of a segment begin behind the bytes of the segments before it. -/
theorem data_flatSegment (data : Array UInt8) (base : UInt16) (n : Nat) :
    (flatSegment data base n).data = data.extract (n * segmentSize - base.toNat)
      ((n + 1) * segmentSize - base.toNat) := by
  have hbase : base.toNat < segmentSize := base.toNat_lt
  rw [flatSegment, Segment.data_ofBytes, Array.extract_extract, extract_min_size, Nat.add_zero]
  refine congrArg (fun stop => data.extract (n * segmentSize - base.toNat) stop) ?_
  split
  · rename_i h
    rw [h]
    omega
  · have hpos : segmentSize ≤ n * segmentSize := Nat.le_mul_of_pos_left _ (by omega)
    rw [UInt16.toNat_zero, Nat.succ_mul]
    omega

/-- The first byte of a segment has the place of its first offset. -/
theorem place_flatSegment (data : Array UInt8) (base : UInt16) (n : Nat) :
    n * 65536 + (flatSegment data base n).start = base.toNat + (n * 65536 - base.toNat) := by
  have hbase : base.toNat < 65536 := base.toNat_lt
  rw [start_flatSegment]
  split <;> omega

/-- A segment has all offsets from its first one on, unless the bytes run out. -/
theorem size_flatSegment (data : Array UInt8) (base : UInt16) (n : Nat) :
    (flatSegment data base n).data.size = min (65536 - (flatSegment data base n).start)
      (data.size - (n * 65536 - base.toNat)) := by
  have hplace := place_flatSegment data base n
  have hfits : (flatSegment data base n).start ≤ 65536 := Nat.le_of_lt (UInt16.toNat_lt _)
  rw [data_flatSegment, Array.size_extract, segmentSize, Nat.succ_mul]
  omega

/-- The offsets of a segment are those of the bytes with a place in it. -/
theorem covers_flatSegment_iff {o : Int} :
    ((flatSegment data base n).start : Int) ≤ o ∧ o < (flatSegment data base n).stop ↔
      0 ≤ o ∧ o < 65536 ∧ ∃ k < data.size, (n * 65536 : Int) + o = (base.toNat + k : Nat) := by
  have hplace := place_flatSegment data base n
  have hsize := size_flatSegment data base n
  have hstop : (flatSegment data base n).stop
      = (flatSegment data base n).start + (flatSegment data base n).data.size := rfl
  rw [hsize] at hstop
  constructor
  · -- The index of a byte is counted from that of the first byte of the segment.
    rintro ⟨hlo, hhi⟩
    refine ⟨by omega, by omega,
      n * 65536 - base.toNat + (o - (flatSegment data base n).start).toNat, by omega, by omega⟩
  · rintro ⟨h0, hlt, k, hk, hsame⟩
    -- Bytes have places from the base on, so the first segment has none in front of its start.
    have hlo : ((flatSegment data base n).start : Int) ≤ o := by
      rw [start_flatSegment]
      split <;> omega
    exact ⟨hlo, by omega⟩

/-- A byte of a segment is the byte of the image with its place. -/
theorem getElem?_flatSegment {j k : Nat} (hj : j < (flatSegment data base n).data.size)
    (hplace : n * 65536 + ((flatSegment data base n).start + j) = base.toNat + k) :
    (flatSegment data base n).data[j]? = data[k]? := by
  have hfirst := place_flatSegment data base n
  have hindex : n * segmentSize - base.toNat + j = k := by
    rw [segmentSize]
    omega
  rw [data_flatSegment, Array.size_extract] at hj
  rw [data_flatSegment, Array.getElem?_extract, if_pos hj, hindex]

end Segments

section Addresses

/-- The address of a place in the row. There is none if the number of its segment does not have
    31 bits. -/
def placeAddress? (place : Nat) : Option Address :=
  if place / segmentSize < 0x80000000 then
    some ⟨Int32.ofNat (place / segmentSize), Int32.ofNat (place % segmentSize)⟩
  else none

/-- The address of the byte of a flat image with some index. -/
def flatAddress? (base : UInt16) (index : Nat) : Option Address :=
  placeAddress? (base.toNat + index)

theorem isSome_placeAddress?_iff {place : Nat} :
    (placeAddress? place).isSome ↔ place < 0x800000000000 := by
  unfold placeAddress? segmentSize
  split
  · rw [Option.isSome_some, eq_self, true_iff]
    omega
  · rw [Option.isSome_none, Bool.false_eq_true, false_iff]
    omega

/-- The numbers of an address give its place. -/
theorem placeAddress?_eq_some_iff {place : Nat} : placeAddress? place = some a ↔
    0 ≤ a.segment.toInt ∧ 0 ≤ a.offset.toInt ∧ a.offset.toInt < 65536
      ∧ a.segment.toInt * 65536 + a.offset.toInt = place := by
  have hlt := a.segment.toInt_lt
  unfold placeAddress? segmentSize
  constructor
  · intro h
    split at h
    · rename_i hsegment
      cases h
      simp only
      rw [Int32.toInt_ofNat_of_lt hsegment, Int32.toInt_ofNat_of_lt (by omega)]
      omega
    · cases h
  · rintro ⟨hsegment, hoffset, hbelow, hplace⟩
    -- Segment and offset are the quotient and the remainder of the place, and both fit into 31
    -- bits.
    have hnumber : place / 65536 = a.segment.toInt.toNat := by omega
    have hrest : place % 65536 = a.offset.toInt.toNat := by omega
    rw [hnumber, hrest, if_pos (by omega), Option.some.injEq]
    refine Address.eq_of_offset_eq (Int32.toInt_inj.mp ?_) ?_
    · rw [Int32.toInt_ofNat_of_lt (by omega)]
      omega
    · rw [Int32.toInt_ofNat_of_lt (by omega)]
      omega

/-- The first byte behind a first segment that begins in the middle of its offsets. -/
example : flatAddress? 0x100 0xFF00 = some ⟨1, 0⟩ := by decide

end Addresses

section Flat

/-- The bytes of a flat image have the addresses of their places. -/
theorem contains_ofBytes_iff :
    (ofBytes data base).contains a ↔ ∃ k < data.size, flatAddress? base k = some a := by
  rw [contains_iff]
  simp only [flatAddress?, placeAddress?_eq_some_iff, segment?_eq_some_iff,
    segments_ofBytes_eq_some_iff]
  constructor
  · rintro ⟨s, ⟨hnumber, -, rfl⟩, hcovers⟩
    rcases covers_flatSegment_iff.mp hcovers with ⟨h0, hlt, k, hk, hplace⟩
    exact ⟨k, hk, hnumber, h0, hlt, by omega⟩
  · rintro ⟨k, hk, hnumber, h0, hlt, hplace⟩
    refine ⟨_, ⟨hnumber, ?_, rfl⟩, covers_flatSegment_iff.mpr ⟨h0, hlt, k, hk, by omega⟩⟩
    have hbase : base.toNat < 65536 := base.toNat_lt
    rw [segmentSize]
    omega

/-- A byte that is read is the one of the flat image with its address. -/
theorem getElem?_of_bytes?_ofBytes (h : (ofBytes data base).bytes? a n = some word) {i : Nat}
    (hi : i < n) : ∃ k < data.size, flatAddress? base k = some (a.advance i)
      ∧ word[i]? = data[k]? := by
  rcases bytes?_eq_some h with ⟨h0, hend, hall⟩
  have hoffset := Address.toInt_advance h0 (n := i) (by omega)
  have hcontains := hall (a.advance i) ⟨rfl, by omega, by omega⟩
  rcases contains_ofBytes_iff.mp hcontains with ⟨k, hk, haddress⟩
  refine ⟨k, hk, haddress, ?_⟩
  -- In the segment and in the image the byte has the same place, so it is the same byte.
  rcases placeAddress?_eq_some_iff.mp haddress with ⟨hnumber, -, -, hplace⟩
  rw [Address.advance_segment, hoffset] at hplace
  rcases bytes?_eq_some_iff.mp h with ⟨s, hs, hlo, hroom, rfl⟩
  rcases segment?_eq_some_iff.mp hs with ⟨-, hs⟩
  rcases segments_ofBytes_eq_some_iff.mp hs with ⟨-, rfl⟩
  rw [Array.getElem?_toList, Array.getElem?_extract, if_pos (by omega)]
  exact getElem?_flatSegment (by omega) (by omega)

/-- Nothing is lost: the segments put together are the bytes. -/
theorem flatMap_segments_ofBytes (data : Array UInt8) (base : UInt16) :
    (ofBytes data base).segments.toList.flatMap (fun s => s.data.toList) = data.toList := by
  have hbase : base.toNat < segmentSize := base.toNat_lt
  have hfits : base.toNat + (data.extract 0 (segmentSize - base.toNat)).size ≤ segmentSize := by
    rw [Array.size_extract]
    omega
  rw [toList_segments_ofBytes, List.flatMap_cons, List.flatMap_map, flatMap_wholeSegments,
    Segment.data_ofBytes_of_le hfits, toList_extract_append]

/-- The image has all of the bytes in a row, and what can be read of it is what the row has. -/
structure FlatLayout (data : Array UInt8) (base : UInt16) (image : Image) : Prop where
  /-- The segments put together are the bytes. -/
  contents : image.segments.toList.flatMap (fun s => s.data.toList) = data.toList
  nonempty : 0 < image.segments.size
  starts : ∀ (n : Nat) (s : Segment), image.segments[n]? = some s →
    s.start = if n = 0 then base.toNat else 0
  stops : ∀ (n : Nat) (s : Segment), image.segments[n]? = some s → s.stop ≤ 0x10000
  /-- Only the first segment and the last may be short. -/
  whole : ∀ (n : Nat) (s : Segment), image.segments[n]? = some s → 0 < n →
    n + 1 < image.segments.size → s.data.size = 0x10000
  /-- An index has an address as long as segments can be numbered. -/
  named : ∀ k, (flatAddress? base k).isSome ↔ base.toNat + k < 0x800000000000
  distinct : ∀ j k a, flatAddress? base j = some a → flatAddress? base k = some a → j = k
  valid : ∀ a, image.contains a ↔ ∃ k < data.size, flatAddress? base k = some a
  single : ∀ a, image.contains a ↔ (image.bytes? a 1).isSome
  readable : ∀ a n, 0 < n →
    ((image.bytes? a n).isSome ↔ ∀ i < n, image.contains (a.advance i))
  /-- What is read are the bytes with the addresses that are asked for. -/
  read : ∀ a n word, image.bytes? a n = some word → word.length = n
    ∧ ∀ i < n, ∃ k < data.size, flatAddress? base k = some (a.advance i) ∧ word[i]? = data[k]?
  tails : ∀ a, (image.tail? a).isSome ↔ image.contains a
  tail : ∀ a, image.contains a → ∃ start stop, image.bounds? a.segment = some (start, stop)
    ∧ a.offset.toInt < stop ∧ image.tail? a = image.bytes? a (stop - a.offset.toInt).toNat

/-- Bytes are laid out without loss. -/
theorem flatLayout_ofBytes (data : Array UInt8) (base : UInt16) :
    FlatLayout data base (ofBytes data base) where
  contents := flatMap_segments_ofBytes data base
  nonempty := by
    rw [← Array.length_toList, toList_segments_ofBytes]
    exact Nat.zero_lt_succ _
  starts := by
    intro n s h
    rw [(segments_ofBytes_eq_some_iff.mp h).2, start_flatSegment]
  stops := fun n s _ => s.fits
  whole := by
    intro n s h hpos hnext
    -- The segment behind it has a byte, so this one is full.
    rcases segments_ofBytes_eq_some_iff.mp (Array.getElem?_eq_getElem hnext) with ⟨hbytes, -⟩
    have hbase : base.toNat < 65536 := base.toNat_lt
    rw [segmentSize] at hbytes
    rw [(segments_ofBytes_eq_some_iff.mp h).2, size_flatSegment, start_flatSegment,
      if_neg (Nat.pos_iff_ne_zero.mp hpos)]
    omega
  named := fun k => isSome_placeAddress?_iff
  distinct := by
    intro j k a hj hk
    have hj := (placeAddress?_eq_some_iff.mp hj).2.2.2
    have hk := (placeAddress?_eq_some_iff.mp hk).2.2.2
    omega
  valid := fun a => contains_ofBytes_iff
  single := fun a => contains_iff_bytes?
  readable := fun a n hn => isSome_bytes?_iff_contains hn
  read := by
    intro a n word h
    refine ⟨?_, fun i hi => getElem?_of_bytes?_ofBytes h hi⟩
    rcases bytes?_eq_some_iff.mp h with ⟨s, -, -, hroom, rfl⟩
    rw [Array.length_toList, Array.size_extract]
    omega
  tails := fun a => isSome_tail?_iff
  tail := fun a h => tail?_eq_bytes? h

end Flat

end Image

end Disasm86
