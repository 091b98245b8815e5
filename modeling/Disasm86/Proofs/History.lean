import Disasm86.Proofs.Partition

/-!
# Every History of a Block Store

A store starts empty and is changed by `add` and `split` alone. Each of the two may refuse,
and what it refuses leaves no trace. `BlockStore.after` applies one such update and
`BlockStore.ofHistory` a list of them, in whatever order they come.

What a history leaves behind is a partition of the bytes it was given: `Partitioned` lists
what a reader of the store may rely on, from the numbering to the order in which the blocks
are listed. It is read off `WellFormed`, which every update keeps. The one fact that needs
an argument is that `add` refuses enough. It compares the new block with one other only, the
last that starts before the new block ends, and `disjoint_of_refusal?_eq_none` says why a
block further back cannot reach into the new one without covering that last block's start.

## Main definitions

* `BlockStore.Update`: A call that may change a store.
* `BlockStore.ofHistory`: The store that a list of updates leaves.
* `BlockStore.Partitioned`: What can be read from a store, and what it means.

## Theorems

* `BlockStore.WellFormed.refusal?_eq_none_iff`: What is accepted overlaps nothing.
* `BlockStore.WellFormed.split_eq_ok_iff`: What can be split.
* `BlockStore.WellFormed.after`: An update keeps the store well formed.
* `BlockStore.wellFormed_ofHistory`: So does every history.
* `BlockStore.WellFormed.partitioned`: A well-formed store is a partition.
* `BlockStore.partitioned_ofHistory`: Every history leaves a partition.
-/

namespace Disasm86

namespace BlockStore

/-- A call that may change a store. -/
inductive Update where
  | add (b : Block)
  | split (cut : Address)
deriving DecidableEq

/-- The store behind an update. A refused update leaves the store as it was. -/
def after (s : BlockStore) : Update → BlockStore
  | .add b =>
    match s.add b with
    | .ok (s', _) => s'
    | .error _ => s
  | .split cut =>
    match s.split cut with
    | .ok (s', _, _) => s'
    | .error _ => s

/-- The store that a list of updates leaves, from no blocks on. -/
def ofHistory (updates : List Update) : BlockStore := updates.foldl after empty

/-- What may be read from a store, and what the answers mean. Nothing here mentions how blocks are
    kept: numbers, starts and the bytes that blocks cover are all that is said, and the order of the
    listing. -/
structure Partitioned (s : BlockStore) : Prop where
  /-- A number below the size is indexed once, under the start of its block. -/
  numbered : ∀ id < s.size, ∃ b, s.get? id = some b
    ∧ ∀ a : Address, s.starts[a]? = some id ↔ a = b.start
  indexed : ∀ (a : Address) id, s.starts[a]? = some id → id < s.size
  positive : ∀ id b, s.get? id = some b → 0 < b.length.toInt
  apart : ∀ id id' b b', s.get? id = some b → s.get? id' = some b' → id ≠ id' →
    b.start.segment = b'.start.segment →
    b.stopOffset ≤ b'.start.offset.toInt ∨ b'.stopOffset ≤ b.start.offset.toInt
  found : ∀ a id, s.find? a = some id ↔ ∃ b, s.get? id = some b ∧ b.contains a
  found_unique : ∀ a id id' b b', s.get? id = some b → s.get? id' = some b' →
    b.contains a → b'.contains a → id = id'
  missed : ∀ a, s.find? a = none ↔ ∀ id b, s.get? id = some b → ¬ b.contains a
  started : ∀ a id, s.startingAt? a = some id ↔ ∃ b, s.get? id = some b ∧ b.start = a
  started_unique : ∀ id id' b b', s.get? id = some b → s.get? id' = some b' →
    b.start = b'.start → id = id'
  unstarted : ∀ a, s.startingAt? a = none ↔ ∀ id b, s.get? id = some b → b.start ≠ a
  listed : ∀ id b, (id, b) ∈ s.inOrder ↔ s.get? id = some b
  listed_once : (s.inOrder.map (·.1)).Nodup
  ascending : s.inOrder.Pairwise fun p q => compare p.2.start q.2.start = .lt
  /-- Nothing is refused that would leave the bytes partitioned. -/
  added : ∀ b, b.start.offset.toInt + b.length.toInt < 0x80000000 →
    (s.add b = .ok (s.push b, s.size) ↔ 0 < b.length.toInt
      ∧ ∀ id c a, s.get? id = some c → c.contains a → ¬ b.contains a)
  cut : ∀ a id, (∃ s', s.split a = .ok (s', id, s.size)) ↔
    ∃ b, s.get? id = some b ∧ b.contains a ∧ b.start ≠ a

theorem exists_get? {s : BlockStore} {id : Nat} (h : id < s.size) : ∃ b, s.get? id = some b :=
  ⟨s.blocks[id], Array.getElem?_eq_some_iff.mpr ⟨h, rfl⟩⟩

/-- The entries of the index, each with its block. -/
theorem inOrder_eq (s : BlockStore) :
    s.inOrder = s.starts.toList.filterMap fun e => (s.get? e.2).map (e.2, ·) := by
  rw [inOrder, values_eq_map_toList, List.filterMap_map]
  rfl

namespace WellFormed

variable {s s' : BlockStore} {b : Block} {a : Address}

/-- A block that is not refused shares no byte with another. Suppose that `c` reaches into
    it. The last block that starts before the end of `b` starts at or behind the start of
    `c` and ends before `b` starts, so its start lies in `c` and the two are one block. -/
theorem disjoint_of_refusal?_eq_none (wf : s.WellFormed)
    (hend : b.start.offset.toInt + b.length.toInt < 0x80000000) (h : s.refusal? b = none)
    {id : Nat} {c : Block} (hget : s.get? id = some c) (hc : c.contains a) : ¬ b.contains a := by
  intro hb
  have hpos : 0 < b.length.toInt := by
    have hin := Block.contains_iff.mp hb
    omega
  have hposc := wf.positive hget
  rcases (Block.meets_iff hposc hpos).mp ⟨a, hc, hb⟩ with ⟨hseg, hlt, hover⟩
  -- There is a last block `d` that starts before the end of `b`, since `c` is a candidate.
  rcases wf.exists_lastBeforeStop? hpos hend hget hseg hlt with ⟨d, hlast⟩
  rcases wf.lastBeforeStop?_eq_some hpos hend hlast with ⟨⟨last, hgetd⟩, hsegd, -, hmax⟩
  have hle := hmax hget hseg hlt
  -- The store has looked at `d`, and has not refused `b` because of it.
  have hclear : d.stopOffset ≤ b.start.offset.toInt := by
    unfold refusal? at h
    simp only [hlast] at h
    split at h
    · cases h
    · split at h
      · cases h
      · omega
  -- So `d` starts inside of `c`, and being `c` it would end before `b` starts.
  have hposd := wf.positive hgetd
  unfold Block.stopOffset at hclear hover
  have hinside : c.contains d.start :=
    Block.contains_iff.mpr ⟨hsegd.trans hseg.symm, hle, by omega⟩
  have hid := wf.disjoint hget hgetd hinside (Block.contains_start hposd)
  rw [hid, hgetd, Option.some.injEq] at hget
  rw [hget] at hclear
  omega

/-- The store accepts exactly the blocks that have bytes and share none with another. -/
theorem refusal?_eq_none_iff (wf : s.WellFormed)
    (hend : b.start.offset.toInt + b.length.toInt < 0x80000000) :
    s.refusal? b = none ↔ 0 < b.length.toInt
      ∧ ∀ id c a, s.get? id = some c → c.contains a → ¬ b.contains a := by
  constructor
  · intro h
    refine ⟨?_, fun id c a hget hc => wf.disjoint_of_refusal?_eq_none hend h hget hc⟩
    unfold refusal? at h
    split at h
    · cases h
    · rename_i hlength
      rw [Int32.le_iff_toInt_le, Int32.toInt_zero] at hlength
      omega
  · intro h
    rcases h with ⟨hpos, hfree⟩
    exact wf.refusal?_eq_none hpos hend fun hget => hfree _ _ _ hget

/-- Adding succeeds exactly if nothing is refused. -/
theorem add_eq_ok_iff (wf : s.WellFormed)
    (hend : b.start.offset.toInt + b.length.toInt < 0x80000000) :
    s.add b = .ok (s.push b, s.size) ↔ 0 < b.length.toInt
      ∧ ∀ id c a, s.get? id = some c → c.contains a → ¬ b.contains a := by
  rw [← wf.refusal?_eq_none_iff hend, add]
  cases s.refusal? b <;> simp

/-- Cutting succeeds inside a block and nowhere else. At its start there is nothing to cut off. -/
theorem split_eq_ok_iff (wf : s.WellFormed) {id n : Nat} :
    s.split a = .ok (s', id, n) ↔ ∃ whole, s.get? id = some whole ∧ whole.contains a
      ∧ whole.start ≠ a ∧ s' = s.cut id whole a ∧ n = s.size := by
  constructor
  · intro h
    unfold split at h
    cases hfind : s.find? a with
    | none => simp only [hfind, reduceCtorEq] at h
    | some found =>
        rcases wf.find?_eq_some_iff.mp hfind with ⟨whole, hget, hin⟩
        simp only [hfind, hget] at h
        by_cases hne : whole.start = a
        · simp only [if_pos hne, reduceCtorEq] at h
        · rw [if_neg hne] at h
          cases h
          exact ⟨whole, hget, hin, hne, rfl, rfl⟩
  · intro h
    rcases h with ⟨whole, hget, hin, hne, rfl, rfl⟩
    exact wf.split_eq_ok hget hin hne

/-- An update keeps the store well formed. -/
theorem after (wf : s.WellFormed) {u : Update}
    (hend : ∀ b, u = .add b → b.start.offset.toInt + b.length.toInt < 0x80000000) :
    (s.after u).WellFormed := by
  cases u with
  | add b =>
      cases h : s.refusal? b with
      | some cause =>
          simp only [BlockStore.after, add, h]
          exact wf
      | none =>
          simp only [BlockStore.after, add, h]
          -- A block that is not refused shares no byte with another one.
          rcases (wf.refusal?_eq_none_iff (hend b rfl)).mp h with ⟨hpos, hfree⟩
          exact wf.push hpos (hend b rfl) fun hget => hfree _ _ _ hget
  | split a =>
      cases h : s.split a with
      | error cause =>
          simp only [BlockStore.after, h]
          exact wf
      | ok result =>
          rcases result with ⟨s', id, n⟩
          simp only [BlockStore.after, h]
          rcases wf.split_eq_ok_iff.mp h with ⟨whole, hget, hin, hne, rfl, -⟩
          exact wf.cut hget hin hne

/-- All blocks are listed, under their numbers. -/
theorem mem_inOrder_iff (wf : s.WellFormed) {id : Nat} :
    (id, b) ∈ s.inOrder ↔ s.get? id = some b := by
  rw [inOrder_eq, List.mem_filterMap]
  constructor
  · intro h
    rcases h with ⟨e, -, he⟩
    rcases Option.map_eq_some_iff.mp he with ⟨c, hget, hpair⟩
    cases hpair
    exact hget
  · intro h
    -- A block can be found by its start, so the index has an entry for it.
    have hindex : s.starts[b.start]? = some id := wf.startingAt?_iff.mpr ⟨b, h, rfl⟩
    exact ⟨(b.start, id), Std.TreeMap.mem_toList_iff_getElem?_eq_some.mpr hindex,
      by simp only [h, Option.map_some]⟩

/-- Blocks are listed by ascending start, which is the order of the index. -/
theorem pairwise_inOrder (wf : s.WellFormed) :
    s.inOrder.Pairwise fun p q => compare p.2.start q.2.start = .lt := by
  -- An entry that is listed stands under the start of its block.
  have hkey : ∀ {e : Address × Nat} {p : Nat × Block}, e ∈ s.starts.toList →
      (s.get? e.2).map (e.2, ·) = some p → p.2.start = e.1 := by
    intro e p he hp
    rcases wf.startingAt?_iff.mp (Std.TreeMap.mem_toList_iff_getElem?_eq_some.mp he)
      with ⟨b, hget, hstart⟩
    rw [hget, Option.map_some, Option.some.injEq] at hp
    rw [← hp, hstart]
  rw [inOrder_eq, List.pairwise_filterMap]
  refine s.starts.ordered_keys_toList.imp_of_mem fun {e e'} he he' hlt p hp q hq => ?_
  rw [hkey he hp, hkey he' hq]
  exact hlt

/-- No block is listed twice. -/
theorem nodup_inOrder (wf : s.WellFormed) : (s.inOrder.map (·.1)).Nodup := by
  rw [List.Nodup, List.pairwise_map]
  refine wf.pairwise_inOrder.imp_of_mem fun {p q} hp hq hlt heq => ?_
  -- Two blocks of one number are one block, and do not start before themselves.
  have hgetp := wf.mem_inOrder_iff.mp hp
  have hgetq := wf.mem_inOrder_iff.mp hq
  rw [heq, hgetq, Option.some.injEq] at hgetp
  rw [hgetp, Address.compare_eq_lt_iff_of_segment_eq rfl] at hlt
  omega

/-- Blocks of one segment that share no byte lie one behind the other. -/
theorem apart (wf : s.WellFormed) {id id' : Nat} {c : Block} (hget : s.get? id = some b)
    (hget' : s.get? id' = some c) (hne : id ≠ id') (hseg : b.start.segment = c.start.segment) :
    b.stopOffset ≤ c.start.offset.toInt ∨ c.stopOffset ≤ b.start.offset.toInt := by
  have hmeets : ¬ b.Meets c := by
    rintro ⟨a, hb, hc⟩
    exact hne (wf.disjoint hget hget' hb hc)
  rw [Block.meets_iff (wf.positive hget) (wf.positive hget')] at hmeets
  have hends := not_and.mp hmeets hseg
  omega

/-- A well-formed store is a partition, whatever is asked of it. -/
theorem partitioned (wf : s.WellFormed) : s.Partitioned where
  numbered := by
    intro id hid
    -- The entry of a block is found by its start, and by no other address.
    rcases exists_get? hid with ⟨b, hget⟩
    refine ⟨b, hget, fun a => ?_⟩
    have hindex : s.startingAt? a = some id ↔ ∃ c, s.get? id = some c ∧ c.start = a :=
      wf.startingAt?_iff
    simp only [hget, Option.some.injEq, exists_eq_left'] at hindex
    rw [eq_comm (a := a)]
    exact hindex
  indexed := by
    intro a id h
    rcases wf.startingAt?_iff.mp h with ⟨b, hget, -⟩
    exact lt_size_of_get? hget
  positive := fun _ _ => wf.positive
  apart := fun _ _ _ _ => wf.apart
  found := fun _ _ => wf.find?_eq_some_iff
  found_unique := fun _ _ _ _ _ => wf.disjoint
  missed := by
    intro a
    rw [Option.eq_none_iff_forall_ne_some]
    simp only [ne_eq, wf.find?_eq_some_iff, not_exists, not_and]
  started := fun _ _ => wf.startingAt?_iff
  started_unique := by
    intro id id' b b' hget hget' heq
    have hin := Block.contains_start (wf.positive hget')
    rw [← heq] at hin
    exact wf.disjoint hget hget' (Block.contains_start (wf.positive hget)) hin
  unstarted := by
    intro a
    rw [Option.eq_none_iff_forall_ne_some]
    simp only [ne_eq, wf.startingAt?_iff, not_exists, not_and]
  listed := fun _ _ => wf.mem_inOrder_iff
  listed_once := wf.nodup_inOrder
  ascending := wf.pairwise_inOrder
  added := fun _ hend => wf.add_eq_ok_iff hend
  cut := by
    intro a id
    simp only [wf.split_eq_ok_iff]
    constructor
    · intro h
      rcases h with ⟨-, b, hget, hin, hne, -⟩
      exact ⟨b, hget, hin, hne⟩
    · intro h
      rcases h with ⟨b, hget, hin, hne⟩
      exact ⟨_, b, hget, hin, hne, rfl, trivial⟩

end WellFormed

/-- Every history leaves a well-formed store, by what one update keeps. -/
theorem wellFormed_ofHistory {updates : List Update}
    (hend : ∀ b, .add b ∈ updates → b.start.offset.toInt + b.length.toInt < 0x80000000) :
    (ofHistory updates).WellFormed := by
  have hrun : ∀ s : BlockStore, s.WellFormed → (updates.foldl BlockStore.after s).WellFormed := by
    induction updates with
    | nil => exact fun s wf => wf
    | cons u rest ih =>
        intro s wf
        refine ih (fun b hb => hend b (List.mem_cons_of_mem _ hb)) _ (wf.after fun b hb => ?_)
        exact hend b (hb ▸ List.mem_cons_self)
  exact hrun empty wellFormed_empty

/-- Whatever has been added and cut, accepted or refused, the blocks are a partition. Only blocks
    that would end behind the 32-bit offsets have to be left out, as their end would wrap. -/
theorem partitioned_ofHistory (updates : List Update)
    (hend : ∀ b, .add b ∈ updates → b.start.offset.toInt + b.length.toInt < 0x80000000) :
    (ofHistory updates).Partitioned :=
  (wellFormed_ofHistory hend).partitioned

/-- Blocks out of order that touch, one refused because it overlaps two of them, one without
    bytes, one at the last offset of another segment, and cuts inside, at a start and outside. -/
def mixed : List Update :=
  [.add ⟨⟨0, 0x20⟩, 8, .ret⟩, .add ⟨⟨0, 0x10⟩, 0x10, .jump⟩, .add ⟨⟨0, 0x18⟩, 0x18, .jump⟩,
    .add ⟨⟨0, 0x30⟩, 0, .jump⟩, .split ⟨0, 0x14⟩, .split ⟨0, 0x20⟩, .split ⟨0, 0x28⟩,
    .add ⟨⟨1, 0x7FFFFFFE⟩, 1, .halt⟩]

/-- So they are after these updates, of which some are refused. -/
theorem partitioned_mixed :
    (∀ b, .add b ∈ mixed → b.start.offset.toInt + b.length.toInt < 0x80000000)
      ∧ (ofHistory mixed).size = 4 ∧ (ofHistory mixed).Partitioned := by
  have hend : ∀ b, .add b ∈ mixed → b.start.offset.toInt + b.length.toInt < 0x80000000 := by
    simp [mixed]
  exact ⟨hend, by decide, partitioned_ofHistory mixed hend⟩

end BlockStore

end Disasm86
