import Disasm86.Block.Store
import Disasm86.Proofs.Span

/-!
# The Block Store as a Partition

The blocks of a store are disjoint runs of bytes, and its index leads to each of them
by its start. `BlockStore.WellFormed` says so, and under it a look at the one
neighbour that the store looks at is enough: the block that covers an address is the
last that starts at or before it, because any block that started in between would lie
inside of it.

There are two updates. `push` puts a block behind the others, and `cut` replaces a block
by its two parts. The store refuses what would make blocks overlap, and `refusal?_eq_none`
and `split_eq_ok` say when it does not; everything else is about `push` and `cut`, which
never fail.

## Main definitions

* `Block.Meets`: Two blocks share an address.
* `BlockStore.WellFormed`: Blocks have bytes, do not overlap, and are indexed by start.
* `Block.headBefore`, `Block.tailFrom`: The two parts of a block that is cut.
* `BlockStore.cut`: A store in which one block is cut.

## Theorems

* `Block.contains_iff`: The addresses that a block covers.
* `Block.toInt_stop`: The end of a block, as a number.
* `Block.meets_iff`: Blocks meet if each starts before the other ends.
* `BlockStore.get?_push_cases`, `BlockStore.get?_cut_cases`: The blocks after an update.
* `BlockStore.exists_contains_cut`: A cut uncovers no address.
* `BlockStore.WellFormed.find?_eq_some_iff`: The block that covers an address is found.
* `BlockStore.WellFormed.lastBeforeStop?_eq_some`: The neighbour that adding looks at.
* `BlockStore.WellFormed.refusal?_eq_none`: A block that overlaps no other is not refused.
* `BlockStore.WellFormed.push`: Adding keeps the store well formed.
* `BlockStore.WellFormed.split_eq_ok`: A block that is cut inside is split.
* `BlockStore.WellFormed.cut`: Cutting keeps the store well formed.
-/

namespace Disasm86

namespace Block

/-- The bytes of a block by their offsets. Offsets are numbers here, so that nothing wraps
    around. -/
theorem contains_iff {b : Block} {a : Address} : b.contains a ↔ a.segment = b.start.segment
    ∧ b.start.offset.toInt ≤ a.offset.toInt
    ∧ a.offset.toInt < b.start.offset.toInt + b.length.toInt := by
  rw [contains, Bool.and_eq_true, Bool.and_eq_true, beq_iff_eq, decide_eq_true_eq,
    decide_eq_true_eq, and_assoc, stopOffset]

theorem contains_start {b : Block} (h : 0 < b.length.toInt) : b.contains b.start :=
  contains_iff.mpr ⟨rfl, Int.le_refl _, by omega⟩

/-- The end of a block that does not reach the end of the 32-bit range. -/
theorem toInt_stop {b : Block} (hpos : 0 < b.length.toInt)
    (hend : b.start.offset.toInt + b.length.toInt < 0x80000000) :
    b.stop.offset.toInt = b.start.offset.toInt + b.length.toInt := by
  have hge := b.start.offset.le_toInt
  rw [stop, Address.offsetBy, Int32.toInt_add]
  exact Int.bmod_eq_of_le (by omega) (by omega)

/-- Lying before the end of a block in the order of addresses is lying before it by offset. -/
theorem compare_stop_eq_lt_iff {b : Block} {a : Address} (hpos : 0 < b.length.toInt)
    (hend : b.start.offset.toInt + b.length.toInt < 0x80000000)
    (hseg : a.segment = b.start.segment) :
    compare a b.stop = .lt ↔ a.offset.toInt < b.stopOffset := by
  have hsame : a.segment = b.stop.segment := hseg
  rw [Address.compare_eq_lt_iff_of_segment_eq hsame, toInt_stop hpos hend, stopOffset]

/-- Two blocks share an address. -/
def Meets (b c : Block) : Prop := ∃ a, b.contains a ∧ c.contains a

/-- Blocks that have bytes share one if each of them starts before the other ends. The later of
    the two starts then lies in both. -/
theorem meets_iff {b c : Block} (hb : 0 < b.length.toInt) (hc : 0 < c.length.toInt) :
    b.Meets c ↔ b.start.segment = c.start.segment
      ∧ b.start.offset.toInt < c.stopOffset ∧ c.start.offset.toInt < b.stopOffset := by
  unfold stopOffset
  constructor
  · rintro ⟨a, hab, hac⟩
    rcases contains_iff.mp hab with ⟨hsegb, hlob, hhib⟩
    rcases contains_iff.mp hac with ⟨hsegc, hloc, hhic⟩
    exact ⟨hsegb.symm.trans hsegc, by omega, by omega⟩
  · rintro ⟨hseg, hbc, hcb⟩
    -- The later of the two starts is a byte of both.
    by_cases hle : b.start.offset.toInt ≤ c.start.offset.toInt
    · exact ⟨c.start, contains_iff.mpr ⟨hseg.symm, hle, hcb⟩, contains_start hc⟩
    · exact ⟨b.start, contains_start hb, contains_iff.mpr ⟨hseg, by omega, hbc⟩⟩

/-- The part of a block before an address. -/
def headBefore (b : Block) (cut : Address) : Block :=
  ⟨b.start, cut.offset - b.start.offset, .fallThrough⟩

/-- The part of a block from an address on. -/
def tailFrom (b : Block) (cut : Address) : Block :=
  ⟨cut, b.length - (cut.offset - b.start.offset), b.kind⟩

/-- The lengths of the two parts, for a cut that falls inside the block. -/
theorem toInt_length_parts {b : Block} {cut : Address} (hin : b.contains cut)
    (hne : b.start ≠ cut) :
    (b.headBefore cut).length.toInt = cut.offset.toInt - b.start.offset.toInt
      ∧ (b.tailFrom cut).length.toInt
        = b.start.offset.toInt + b.length.toInt - cut.offset.toInt
      ∧ b.start.offset.toInt < cut.offset.toInt := by
  rcases contains_iff.mp hin with ⟨hs, hlo, hhi⟩
  have hlt : b.start.offset.toInt < cut.offset.toInt := by
    have hoff : b.start.offset.toInt ≠ cut.offset.toInt :=
      fun h => hne (Address.eq_of_offset_eq hs.symm h)
    omega
  have hlen := b.length.toInt_lt
  -- Both lengths are differences that do not leave the 32 bits, since the cut lies inside.
  have hhead : (cut.offset - b.start.offset).toInt
      = cut.offset.toInt - b.start.offset.toInt := by
    rw [Int32.toInt_sub]
    exact Int.bmod_eq_of_le (by omega) (by omega)
  refine ⟨hhead, ?_, hlt⟩
  rw [tailFrom, Int32.toInt_sub, hhead, Int.bmod_eq_of_le (by omega) (by omega)]
  omega

theorem stop_headBefore {b : Block} {cut : Address} (hin : b.contains cut) :
    (b.headBefore cut).stop = cut := by
  have hsum : b.start.offset + (cut.offset - b.start.offset) = cut.offset := by grind
  simp only [headBefore, stop, Address.offsetBy, hsum, ← (contains_iff.mp hin).1]

theorem stop_tailFrom {b : Block} {cut : Address} (hin : b.contains cut) :
    (b.tailFrom cut).stop = b.stop := by
  have hsum : cut.offset + (b.length - (cut.offset - b.start.offset))
      = b.start.offset + b.length := by grind
  simp only [tailFrom, stop, Address.offsetBy, hsum, (contains_iff.mp hin).1]

/-- The first part has the bytes of the block in front of the cut. -/
theorem contains_headBefore {b : Block} {cut a : Address} (hin : b.contains cut)
    (hne : b.start ≠ cut) :
    (b.headBefore cut).contains a ↔ b.contains a ∧ a.offset.toInt < cut.offset.toInt := by
  rcases toInt_length_parts hin hne with ⟨hhead, -, -⟩
  have hcut := (contains_iff.mp hin).2.2
  have hstart : (b.headBefore cut).start = b.start := rfl
  rw [contains_iff, contains_iff, hhead, hstart]
  constructor
  · intro h
    rcases h with ⟨hs, hlo, hhi⟩
    exact ⟨⟨hs, hlo, by omega⟩, by omega⟩
  · intro h
    rcases h with ⟨⟨hs, hlo, hhi⟩, hlt⟩
    exact ⟨hs, hlo, by omega⟩

/-- The second part has all others. -/
theorem contains_tailFrom {b : Block} {cut a : Address} (hin : b.contains cut)
    (hne : b.start ≠ cut) :
    (b.tailFrom cut).contains a ↔ b.contains a ∧ cut.offset.toInt ≤ a.offset.toInt := by
  rcases toInt_length_parts hin hne with ⟨-, htail, hlt⟩
  have hseg := (contains_iff.mp hin).1
  have hstart : (b.tailFrom cut).start = cut := rfl
  rw [contains_iff, contains_iff, htail, hstart, hseg]
  constructor
  · intro h
    rcases h with ⟨hs, hlo, hhi⟩
    exact ⟨⟨hs, by omega, by omega⟩, hlo⟩
  · intro h
    rcases h with ⟨⟨hs, hlo, hhi⟩, hle⟩
    exact ⟨hs, hle, by omega⟩

end Block

namespace BlockStore

/-- Every block has bytes and ends inside the 32-bit offsets, no two blocks share a byte, and the
    index leads from a start to the block that starts there. Adding and cutting keep this, and
    looking an address up is right because of it. -/
structure WellFormed (s : BlockStore) : Prop where
  startingAt?_iff : ∀ {a id}, s.startingAt? a = some id ↔ ∃ b, s.get? id = some b ∧ b.start = a
  positive : ∀ {id b}, s.get? id = some b → 0 < b.length.toInt
  bounded : ∀ {id b}, s.get? id = some b → b.start.offset.toInt + b.length.toInt < 0x80000000
  disjoint : ∀ {id id' b b' a}, s.get? id = some b → s.get? id' = some b' →
    b.contains a → b'.contains a → id = id'

/-- A store in which the block of a number is replaced by its part before an address,
    and its part from there on gets the next number. -/
def cut (s : BlockStore) (id : Nat) (whole : Block) (a : Address) : BlockStore :=
  ⟨(s.blocks.setIfInBounds id (whole.headBefore a)).push (whole.tailFrom a),
    s.starts.insert a s.size⟩

section Views

variable {s : BlockStore} {b whole : Block} {a mid : Address} {id : Nat}

theorem lt_size_of_get? (h : s.get? id = some b) : id < s.size := by
  rw [get?] at h
  exact (Array.getElem?_eq_some_iff.mp h).1

/-- A new block gets the next number. -/
theorem get?_push (j : Nat) :
    (s.push b).get? j = if j = s.size then some b else s.get? j := by
  unfold get? push size
  rw [Array.getElem?_push]

theorem get?_push_self : (s.push b).get? s.size = some b := by
  rw [get?_push, if_pos rfl]

theorem get?_push_of_get? {c : Block} (h : s.get? id = some c) : (s.push b).get? id = some c := by
  have hlt := lt_size_of_get? h
  rw [get?_push, if_neg (by omega), h]

/-- The blocks of a store with one more block: that one, and the others. -/
theorem get?_push_cases {c : Block} (h : (s.push b).get? id = some c) :
    (id = s.size ∧ c = b) ∨ s.get? id = some c := by
  rw [get?_push] at h
  by_cases hid : id = s.size
  · rw [if_pos hid, Option.some.injEq] at h
    exact Or.inl ⟨hid, h.symm⟩
  · rw [if_neg hid] at h
    exact Or.inr h

/-- The index alone, whatever the blocks are. -/
theorem startingAt?_insert (blocks : Array Block) (c : Address) (n : Nat) :
    (BlockStore.mk blocks (s.starts.insert c n)).startingAt? a
      = if a = c then some n else s.startingAt? a :=
  getElem?_insert_ite s.starts c a n

/-- The blocks behind a cut by their numbers. -/
theorem get?_cut (hid : id < s.size) (j : Nat) :
    (s.cut id whole a).get? j = if j = s.size then some (whole.tailFrom a)
      else if j = id then some (whole.headBefore a) else s.get? j := by
  unfold size at hid
  unfold get? cut size
  rw [Array.getElem?_push, Array.size_setIfInBounds, Array.getElem?_setIfInBounds]
  by_cases hj : j = s.blocks.size
  · rw [if_pos hj, if_pos hj]
  · rw [if_neg hj, if_neg hj]
    by_cases hji : j = id
    · rw [if_pos hji, if_pos hji.symm, if_pos hid]
    · rw [if_neg hji, if_neg (fun hc => hji hc.symm)]

theorem get?_cut_tail (hget : s.get? id = some whole) :
    (s.cut id whole a).get? s.size = some (whole.tailFrom a) := by
  rw [get?_cut (lt_size_of_get? hget), if_pos rfl]

theorem get?_cut_head (hget : s.get? id = some whole) :
    (s.cut id whole a).get? id = some (whole.headBefore a) := by
  have hlt := lt_size_of_get? hget
  rw [get?_cut hlt, if_neg (by omega), if_pos rfl]

theorem get?_cut_other (hget : s.get? id = some whole) {j : Nat} (hne : j ≠ id)
    (h : s.get? j = some b) : (s.cut id whole a).get? j = some b := by
  have hlt := lt_size_of_get? h
  rw [get?_cut (lt_size_of_get? hget), if_neg (by omega), if_neg hne, h]

/-- The blocks of a store in which one block is cut: the two parts, and the others. -/
theorem get?_cut_cases (hget : s.get? id = some whole) {j : Nat}
    (h : (s.cut id whole mid).get? j = some b) :
    (j = s.size ∧ b = whole.tailFrom mid) ∨ (j = id ∧ b = whole.headBefore mid)
      ∨ (j ≠ s.size ∧ j ≠ id ∧ s.get? j = some b) := by
  rw [get?_cut (lt_size_of_get? hget)] at h
  by_cases hj : j = s.size
  · rw [if_pos hj, Option.some.injEq] at h
    exact Or.inl ⟨hj, h.symm⟩
  · rw [if_neg hj] at h
    by_cases hji : j = id
    · rw [if_pos hji, Option.some.injEq] at h
      exact Or.inr (Or.inl ⟨hji, h.symm⟩)
    · rw [if_neg hji] at h
      exact Or.inr (Or.inr ⟨hj, hji, h⟩)

/-- A new block adds its start. -/
theorem exists_start_push {j : Nat} : (∃ c, (s.push b).get? j = some c ∧ c.start = a) ↔
    j = s.size ∧ a = b.start ∨ ∃ c, s.get? j = some c ∧ c.start = a := by
  constructor
  · intro h
    rcases h with ⟨c, hc, hstart⟩
    rcases get?_push_cases hc with ⟨hj, rfl⟩ | hold
    · exact Or.inl ⟨hj, hstart.symm⟩
    · exact Or.inr ⟨c, hold, hstart⟩
  · intro h
    rcases h with ⟨rfl, ha⟩ | ⟨c, hc, hstart⟩
    · exact ⟨b, get?_push_self, ha.symm⟩
    · exact ⟨c, get?_push_of_get? hc, hstart⟩

/-- A cut adds its address, and the part in front of it keeps the start of the block. -/
theorem exists_start_cut (hget : s.get? id = some whole) {j : Nat} :
    (∃ c, (s.cut id whole mid).get? j = some c ∧ c.start = a) ↔
      j = s.size ∧ a = mid ∨ ∃ c, s.get? j = some c ∧ c.start = a := by
  constructor
  · intro h
    rcases h with ⟨c, hc, hstart⟩
    rcases get?_cut_cases hget hc with ⟨hj, rfl⟩ | ⟨hj, rfl⟩ | ⟨-, -, hold⟩
    · exact Or.inl ⟨hj, hstart.symm⟩
    · rw [hj]
      exact Or.inr ⟨whole, hget, hstart⟩
    · exact Or.inr ⟨c, hold, hstart⟩
  · intro h
    rcases h with ⟨rfl, ha⟩ | ⟨c, hc, hstart⟩
    · exact ⟨_, get?_cut_tail hget, ha.symm⟩
    · -- The block that is cut keeps its number and its start, though it has become shorter.
      by_cases hji : j = id
      · rw [hji, hget, Option.some.injEq] at hc
        rw [← hc] at hstart
        rw [hji]
        exact ⟨_, get?_cut_head hget, hstart⟩
      · exact ⟨c, get?_cut_other hget hji hc, hstart⟩

/-- Each block of the cut store lies in a block of the store, and in the same one only
    if it is one of the two parts. -/
theorem contains_of_get?_cut (hget : s.get? id = some whole)
    (hin : whole.contains mid) (hne : whole.start ≠ mid) {j : Nat}
    (h : (s.cut id whole mid).get? j = some b) (ha : b.contains a) :
    ∃ j' b', s.get? j' = some b' ∧ b'.contains a ∧ (j' = j ∨ j' = id ∧ j = s.size)
      ∧ (j' = id → (j = s.size ↔ mid.offset.toInt ≤ a.offset.toInt)) := by
  have hlt := lt_size_of_get? hget
  -- The second part, the first part, and all other blocks.
  rcases get?_cut_cases hget h with ⟨rfl, rfl⟩ | ⟨rfl, rfl⟩ | ⟨hj, hji, hold⟩
  · rcases (Block.contains_tailFrom hin hne).mp ha with ⟨hwhole, hle⟩
    exact ⟨id, whole, hget, hwhole, Or.inr ⟨rfl, rfl⟩, fun _ => by simp only [hle]⟩
  · rcases (Block.contains_headBefore hin hne).mp ha with ⟨hwhole, hlt'⟩
    refine ⟨j, whole, hget, hwhole, Or.inl rfl, fun _ => ?_⟩
    constructor
    · intro heq
      omega
    · intro hle
      omega
  · exact ⟨j, b, hold, ha, Or.inl rfl, fun heq => absurd heq hji⟩

/-- An address that a block covers is covered after the cut as well, by a block that starts
    where it did or by the second part of the block that was cut. -/
theorem exists_contains_cut (hget : s.get? id = some whole) (hin : whole.contains mid)
    (hne : whole.start ≠ mid) {j : Nat} (h : s.get? j = some b) (ha : b.contains a) :
    ∃ k c, (s.cut id whole mid).get? k = some c ∧ c.contains a
      ∧ (c.start = b.start ∨ b = whole ∧ c.start = mid) := by
  by_cases hj : j = id
  · rw [hj, hget, Option.some.injEq] at h
    subst h
    -- It lies before the cut or behind it.
    by_cases hbefore : a.offset.toInt < mid.offset.toInt
    · exact ⟨id, _, get?_cut_head hget, (Block.contains_headBefore hin hne).mpr ⟨ha, hbefore⟩,
        Or.inl rfl⟩
    · exact ⟨s.size, _, get?_cut_tail hget,
        (Block.contains_tailFrom hin hne).mpr ⟨ha, by omega⟩, Or.inr ⟨rfl, rfl⟩⟩
  · exact ⟨j, b, get?_cut_other hget hj h, ha, Or.inl rfl⟩

end Views

theorem wellFormed_empty : WellFormed empty where
  startingAt?_iff := by simp [startingAt?, get?, empty]
  positive := by simp [get?, empty]
  bounded := by simp [get?, empty]
  disjoint := by simp [get?, empty]

namespace WellFormed

variable {s : BlockStore} {b whole : Block} {a mid : Address} {id : Nat}

/-- The block that covers an address is the last that starts at or before it: one that started in
    between would share its first byte with the covering block. So it is enough to look at one entry
    of the index. -/
theorem find?_eq_some_iff (wf : s.WellFormed) :
    s.find? a = some id ↔ ∃ b, s.get? id = some b ∧ b.contains a := by
  unfold find?
  constructor
  · intro h
    cases hle : s.starts.getEntryLE? a with
    | none => simp only [hle, reduceCtorEq] at h
    | some entry =>
        simp only [hle] at h
        split at h
        · rename_i hany
          cases h
          exact (Option.any_eq_true _ _).mp hany
        · cases h
  · intro h
    rcases h with ⟨b, hget, hin⟩
    have hindex : s.starts[b.start]? = some id := wf.startingAt?_iff.mpr ⟨b, hget, rfl⟩
    rcases Block.contains_iff.mp hin with ⟨hs, hlo, hhi⟩
    -- No other entry can be nearer, because its block would start inside of `b`.
    have hlast : s.starts.getEntryLE? a = some (b.start, id) := by
      refine getEntryLE?_eq_some_iff.mpr ⟨hindex, ?_, fun c other hc hca => ?_⟩
      · exact (Address.isLE_compare_iff_of_segment_eq hs.symm).mpr hlo
      · rw [Address.isLE_compare_iff]
        intro hbc
        rcases wf.startingAt?_iff.mp hc with ⟨b', hget', rfl⟩
        rcases Address.between_of_compare hs hbc hca with ⟨hseg, hlt, hle⟩
        have hinside : b.contains b'.start :=
          Block.contains_iff.mpr ⟨hseg, by omega, by omega⟩
        have hid := wf.disjoint hget hget' hinside (Block.contains_start (wf.positive hget'))
        rw [hid, hget', Option.some.injEq] at hget
        rw [hget] at hlt
        omega
    simp only [hlast, hget, Option.any_some, hin, if_true]

/-- The block that adding looks at is one of the store, and of those that start before the end of
    the new block it is the last. -/
theorem lastBeforeStop?_eq_some (wf : s.WellFormed) (hpos : 0 < b.length.toInt)
    (hend : b.start.offset.toInt + b.length.toInt < 0x80000000) {d : Block}
    (h : s.lastBeforeStop? b = some d) :
    (∃ id, s.get? id = some d) ∧ d.start.segment = b.start.segment
      ∧ d.start.offset.toInt < b.stopOffset
      ∧ ∀ {id c}, s.get? id = some c → c.start.segment = b.start.segment →
        c.start.offset.toInt < b.stopOffset → c.start.offset.toInt ≤ d.start.offset.toInt := by
  unfold lastBeforeStop? at h
  cases hentry : s.starts.getEntryLT? b.stop with
  | none => simp only [hentry, reduceCtorEq] at h
  | some entry =>
      rcases entry with ⟨start, id⟩
      rcases getEntryLT?_eq_some_iff.mp hentry with ⟨hindex, hlt, hlast⟩
      simp only [hentry] at h
      -- The last entry before the end may belong to another segment. Then there is none in this
      -- one.
      by_cases hseg : start.segment = b.start.segment
      · rw [if_pos hseg] at h
        rcases wf.startingAt?_iff.mp hindex with ⟨_, hget, rfl⟩
        rw [h, Option.some.injEq] at hget
        subst hget
        refine ⟨⟨id, h⟩, hseg, (Block.compare_stop_eq_lt_iff hpos hend hseg).mp hlt,
          fun {k c} hc hsegc hltc => ?_⟩
        have hle := hlast c.start k (wf.startingAt?_iff.mpr ⟨c, hc, rfl⟩)
          ((Block.compare_stop_eq_lt_iff hpos hend hsegc).mpr hltc)
        exact (Address.isLE_compare_iff_of_segment_eq (hsegc.trans hseg.symm)).mp hle
      · rw [if_neg hseg] at h
        cases h

/-- If a block of the segment starts before the end of the new one, there is a last one that
    does. -/
theorem exists_lastBeforeStop? (wf : s.WellFormed) (hpos : 0 < b.length.toInt)
    (hend : b.start.offset.toInt + b.length.toInt < 0x80000000) {c : Block}
    (hget : s.get? id = some c) (hseg : c.start.segment = b.start.segment)
    (hlt : c.start.offset.toInt < b.stopOffset) : ∃ d, s.lastBeforeStop? b = some d := by
  have hsame : c.start.segment = b.stop.segment := hseg
  have hbefore := (Block.compare_stop_eq_lt_iff hpos hend hseg).mpr hlt
  have hindex : s.starts[c.start]? = some id := wf.startingAt?_iff.mpr ⟨c, hget, rfl⟩
  rcases exists_getEntryLT? hindex hbefore with ⟨start, last, hentry⟩
  rcases getEntryLT?_eq_some_iff.mp hentry with ⟨hlast, hltLast, hmax⟩
  -- The last entry lies between `c` and the end, so it is in the same segment.
  rcases wf.startingAt?_iff.mp hlast with ⟨d, hgetd, rfl⟩
  have hsegd := (Address.between_of_isLE_compare hsame.symm
    (hmax c.start id hindex hbefore) hltLast).1
  exact ⟨d, by simp only [lastBeforeStop?, hentry, hsegd.trans hseg, if_true, hgetd]⟩

/-- A block that shares no byte with the others is not refused. The last block that starts
    before its end lies before its start. -/
theorem refusal?_eq_none (wf : s.WellFormed) (hpos : 0 < b.length.toInt)
    (hend : b.start.offset.toInt + b.length.toInt < 0x80000000)
    (hfree : ∀ {id c a}, s.get? id = some c → c.contains a → ¬ b.contains a) :
    s.refusal? b = none := by
  have hlength : ¬ b.length ≤ 0 := by
    rw [Int32.le_iff_toInt_le, Int32.toInt_zero]
    omega
  unfold refusal?
  rw [if_neg hlength]
  cases hlast : s.lastBeforeStop? b with
  | none => rfl
  | some d =>
      rcases wf.lastBeforeStop?_eq_some hpos hend hlast with ⟨⟨id, hget⟩, hseg, hlt, -⟩
      have hbefore : ¬ b.start.offset.toInt < d.stopOffset := by
        intro hover
        rcases (Block.meets_iff (wf.positive hget) hpos).mpr ⟨hseg, hlt, hover⟩ with ⟨a, hd, hb⟩
        exact hfree hget hd hb
      simp only [if_neg hbefore]

/-- The index stays right if an address at which no block starts is entered for the
    next number. -/
theorem startingAt?_insert_iff (wf : s.WellFormed) (blocks : Array Block)
    (hnew : ∀ {k c}, s.get? k = some c → c.start ≠ mid) :
    (BlockStore.mk blocks (s.starts.insert mid s.size)).startingAt? a = some id ↔
      id = s.size ∧ a = mid ∨ ∃ c, s.get? id = some c ∧ c.start = a := by
  rw [startingAt?_insert]
  by_cases ha : a = mid
  · rw [if_pos ha, Option.some.injEq]
    constructor
    · intro hid
      exact Or.inl ⟨hid.symm, ha⟩
    · intro h
      rcases h with ⟨hid, -⟩ | ⟨c, hc, hstart⟩
      · exact hid.symm
      · exact absurd (hstart.trans ha) (hnew hc)
  · rw [if_neg ha, wf.startingAt?_iff]
    simp only [ha, and_false, false_or]

/-- Adding a block that shares no byte with the others keeps the store well formed. -/
theorem push (wf : s.WellFormed) (hpos : 0 < b.length.toInt)
    (hend : b.start.offset.toInt + b.length.toInt < 0x80000000)
    (hfree : ∀ {id c a}, s.get? id = some c → c.contains a → ¬ b.contains a) :
    (s.push b).WellFormed where
  startingAt?_iff := by
    intro a id
    rw [exists_start_push]
    refine wf.startingAt?_insert_iff _ fun hget heq => ?_
    -- A block that starts there would share its first byte with the new one.
    have hin := Block.contains_start (wf.positive hget)
    rw [heq] at hin
    exact hfree hget hin (Block.contains_start hpos)
  positive := by
    intro id c h
    rcases get?_push_cases h with ⟨-, rfl⟩ | hold
    · exact hpos
    · exact wf.positive hold
  bounded := by
    intro id c h
    rcases get?_push_cases h with ⟨-, rfl⟩ | hold
    · exact hend
    · exact wf.bounded hold
  disjoint := by
    intro id id' c c' a h h' hin hin'
    rcases get?_push_cases h with ⟨hid, rfl⟩ | hold <;>
      rcases get?_push_cases h' with ⟨hid', rfl⟩ | hold'
    · rw [hid, hid']
    · exact absurd hin (hfree hold' hin')
    · exact absurd hin' (hfree hold hin)
    · exact wf.disjoint hold hold' hin hin'

/-- A cut that falls inside a block splits that block. -/
theorem split_eq_ok (wf : s.WellFormed) (hget : s.get? id = some whole)
    (hin : whole.contains mid) (hne : whole.start ≠ mid) :
    s.split mid = .ok (s.cut id whole mid, id, s.size) := by
  have hfind : s.find? mid = some id := wf.find?_eq_some_iff.mpr ⟨whole, hget, hin⟩
  unfold split
  simp only [hfind, hget, if_neg hne]
  rfl

/-- Cutting a block keeps the store well formed. -/
theorem cut (wf : s.WellFormed) (hget : s.get? id = some whole)
    (hin : whole.contains mid) (hne : whole.start ≠ mid) :
    (s.cut id whole mid).WellFormed where
  startingAt?_iff := by
    intro a j
    rw [exists_start_cut hget]
    refine wf.startingAt?_insert_iff _ fun {k c} hk heq => ?_
    -- A block that starts at the cut would be the one around it, which starts before.
    have hstart := Block.contains_start (wf.positive hk)
    rw [heq] at hstart
    have hkid := wf.disjoint hk hget hstart hin
    rw [hkid, hget, Option.some.injEq] at hk
    exact hne (by rw [hk, heq])
  positive := by
    intro j c h
    rcases Block.toInt_length_parts hin hne with ⟨hhead, htail, hlt⟩
    have hcut := (Block.contains_iff.mp hin).2.2
    rcases get?_cut_cases hget h with ⟨-, rfl⟩ | ⟨-, rfl⟩ | ⟨-, -, hold⟩
    · omega
    · omega
    · exact wf.positive hold
  bounded := by
    intro j c h
    rcases Block.toInt_length_parts hin hne with ⟨hhead, htail, hlt⟩
    have hcut := (Block.contains_iff.mp hin).2.2
    have hwhole := wf.bounded hget
    rcases get?_cut_cases hget h with ⟨-, rfl⟩ | ⟨-, rfl⟩ | ⟨-, -, hold⟩
    · rw [htail]
      simp only [Block.tailFrom]
      omega
    · rw [hhead]
      simp only [Block.headBefore]
      omega
    · exact wf.bounded hold
  disjoint := by
    intro j k b c a hj hk hb hc
    rcases contains_of_get?_cut hget hin hne hj hb with ⟨j', b', hj', hb', hcase, hside⟩
    rcases contains_of_get?_cut hget hin hne hk hc with ⟨k', c', hk', hc', hcase', hside'⟩
    have hsame := wf.disjoint hj' hk' hb' hc'
    subst hsame
    rcases hcase with rfl | ⟨rfl, rfl⟩ <;> rcases hcase' with h | ⟨h, rfl⟩
    · exact h
    · exact (hside h).mpr ((hside' h).mp rfl)
    · exact ((hside' rfl).mpr ((hside rfl).mp rfl)).symm
    · rfl

end WellFormed

end BlockStore

end Disasm86
