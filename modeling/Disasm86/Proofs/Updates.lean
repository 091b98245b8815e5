import Disasm86.Proofs.History

/-!
# What One Update Does

A store of blocks is changed by `add` and `split`, and each of them either refuses or changes just
what it has to. Here both are described in full: for which arguments they refuse and what they
report, and what every question to the store answers afterwards.

The report of an overlap needs an argument. A new block may reach into several others, and the
store looks at one of them only, the last that starts before the new block ends. That one is the
last of all blocks that the new one meets: each of these starts before the new block ends, so none
starts behind it; and if any block is met, that one is met too, since a block further back that
reached over it would cover its start.

## Main definitions

* `BlockStore.LastMet`: The start of the last block that another one meets.
* `BlockStore.Covers`: Some block covers an address.
* `BlockStore.AddsExactly`: What adding a block comes to.
* `BlockStore.SplitsExactly`: What splitting at an address comes to.
* `BlockStore.Refuses`: An update fails.

## Theorems

* `BlockStore.WellFormed.lastMet_of_lastBeforeStop?`: Which overlap is reported.
* `BlockStore.WellFormed.add_outcome`: The three outcomes of adding a block.
* `BlockStore.WellFormed.find?_push`, `BlockStore.WellFormed.find?_cut`: What is found afterwards.
* `BlockStore.covers_cut`: A cut covers what was covered.
* `BlockStore.WellFormed.addsExactly`, `BlockStore.WellFormed.splitsExactly`: Both updates of a
  well-formed store.
* `BlockStore.ofHistory_updates`: Both updates after every history.
-/

namespace Disasm86

namespace Block

/-- A block around an address starts elsewhere if it starts before. -/
theorem start_ne_iff_lt {b : Block} {a : Address} (ha : b.contains a) :
    b.start ≠ a ↔ b.start.offset.toInt < a.offset.toInt := by
  constructor
  · intro hne
    exact (toInt_length_parts ha hne).2.2
  · rintro hlt rfl
    omega

/-- The first part of a block ends at the cut, and the second one where the block does. -/
theorem stopOffset_parts {b : Block} {cut : Address} (hin : b.contains cut)
    (hne : b.start ≠ cut) : (b.headBefore cut).stopOffset = cut.offset.toInt
      ∧ (b.tailFrom cut).stopOffset = b.stopOffset := by
  rcases toInt_length_parts hin hne with ⟨hhead, htail, -⟩
  have hstart : (b.headBefore cut).start = b.start := rfl
  have hcut : (b.tailFrom cut).start = cut := rfl
  unfold stopOffset
  rw [hhead, htail, hstart, hcut]
  omega

end Block

namespace BlockStore

/-- Of the blocks that `b` meets, the last one starts at `x`. -/
def LastMet (s : BlockStore) (b : Block) (x : Address) : Prop :=
  ∃ id c, s.get? id = some c ∧ c.start = x ∧ c.Meets b
    ∧ ∀ id' c', s.get? id' = some c' → c'.Meets b → c'.start.offset.toInt ≤ x.offset.toInt

/-- Some block covers the address. -/
def Covers (s : BlockStore) (a : Address) : Prop := ∃ id b, s.get? id = some b ∧ b.contains a

/-- What adding a block comes to. The three outcomes are told apart by the blocks alone, without
    looking at the index. -/
structure AddsExactly (s : BlockStore) (b : Block) : Prop where
  /-- A block without bytes is refused, whatever it lies in. -/
  empty_iff : s.add b = .error (.emptyRange b.start b.stop) ↔ b.length.toInt ≤ 0
  /-- Another one is refused if it meets a block. -/
  meets_iff : (∃ x, s.add b = .error (.blockOverlap x)) ↔
    0 < b.length.toInt ∧ ∃ id c, s.get? id = some c ∧ c.Meets b
  /-- The last block that it meets is reported. -/
  overlap_iff : ∀ x, s.add b = .error (.blockOverlap x) ↔ 0 < b.length.toInt ∧ s.LastMet b x
  /-- There is no other way to fail. -/
  fault : ∀ e, s.add b = .error e → e = .emptyRange b.start b.stop ∨ ∃ x, e = .blockOverlap x
  /-- A block that is taken gets the next number, and the others stay as they are. -/
  added : ∀ s' id, s.add b = .ok (s', id) → id = s.size ∧ s'.size = s.size + 1
    ∧ (∀ j, s'.get? j = if j = s.size then some b else s.get? j)
    ∧ (∀ a, s'.find? a = if b.contains a then some s.size else s.find? a)
    ∧ (∀ a, s'.startingAt? a = if a = b.start then some s.size else s.startingAt? a)
    ∧ ∀ p, p ∈ s'.inOrder ↔ p = (s.size, b) ∨ p ∈ s.inOrder

/-- What splitting at an address comes to, told in the same way. -/
structure SplitsExactly (s : BlockStore) (a : Address) : Prop where
  /-- Splitting is refused if no block covers the address and starts before it. -/
  refused_iff : s.split a = .error (.splitOutsideBlock a) ↔
    ¬ ∃ id b, s.get? id = some b ∧ b.contains a ∧ b.start.offset.toInt < a.offset.toInt
  /-- There is no other way to fail. -/
  fault : ∀ e, s.split a = .error e → e = .splitOutsideBlock a
  /-- The part in front of the address keeps the number of the block, and the part from there on
      gets the next number and the kind of the block. Nothing else changes. -/
  parted : ∀ s' head tail, s.split a = .ok (s', head, tail) → ∃ whole front back,
    s.get? head = some whole ∧ whole.contains a ∧ whole.start.offset.toInt < a.offset.toInt
    ∧ tail = s.size ∧ s'.size = s.size + 1
    ∧ front.start = whole.start ∧ front.stopOffset = a.offset.toInt ∧ front.kind = .fallThrough
    ∧ back.start = a ∧ back.stopOffset = whole.stopOffset ∧ back.kind = whole.kind
    ∧ (∀ j, s'.get? j = if j = tail then some back else if j = head then some front else s.get? j)
    ∧ (∀ x, s'.find? x = if back.contains x then some tail else s.find? x)
    ∧ (∀ x, s'.startingAt? x = if x = a then some tail else s.startingAt? x)
    ∧ (∀ p, p ∈ s'.inOrder ↔
        p = (tail, back) ∨ p = (head, front) ∨ p.1 ≠ head ∧ p ∈ s.inOrder)
    ∧ ∀ x, s'.Covers x ↔ s.Covers x

/-- The update fails. -/
def Refuses (s : BlockStore) : Update → Prop
  | .add b => ∃ e, s.add b = .error e
  | .split a => ∃ e, s.split a = .error e

/-- An update that fails changes nothing. -/
theorem after_of_refuses {s : BlockStore} {u : Update} (h : s.Refuses u) : s.after u = s := by
  cases u with
  | add b =>
      rcases h with ⟨e, he⟩
      simp only [after, he]
  | split a =>
      rcases h with ⟨e, he⟩
      simp only [after, he]

theorem add_eq_error_iff {s : BlockStore} {b : Block} {e : Fault} :
    s.add b = .error e ↔ s.refusal? b = some e := by
  unfold add
  cases s.refusal? b <;> simp

/-- Splitting has one way to fail, wherever it fails. -/
theorem split_eq_error {s : BlockStore} {a : Address} {e : Fault} (h : s.split a = .error e) :
    e = .splitOutsideBlock a := by
  unfold split at h
  grind

/-- Without bytes a block is refused before anything is looked at. -/
theorem refusal?_of_length_le {s : BlockStore} {b : Block} (h : b.length.toInt ≤ 0) :
    s.refusal? b = some (.emptyRange b.start b.stop) := by
  have hle : b.length ≤ 0 := by
    rw [Int32.le_iff_toInt_le, Int32.toInt_zero]
    exact h
  rw [refusal?, if_pos hle]

/-- A block that has bytes is refused because of the one block that is looked at. -/
theorem refusal?_eq_some_iff {s : BlockStore} {b : Block} {e : Fault}
    (hpos : 0 < b.length.toInt) : s.refusal? b = some e ↔ ∃ d, s.lastBeforeStop? b = some d
      ∧ b.start.offset.toInt < d.stopOffset ∧ e = .blockOverlap d.start := by
  have hlength : ¬ b.length ≤ 0 := by
    rw [Int32.le_iff_toInt_le, Int32.toInt_zero]
    omega
  rw [refusal?, if_neg hlength]
  cases s.lastBeforeStop? b with
  | none => simp
  | some d =>
      by_cases hover : b.start.offset.toInt < d.stopOffset
      · simp [hover, eq_comm]
      · simp [hover]

/-- There is one last block, as blocks of one segment with one start are the same. -/
theorem LastMet.unique {s : BlockStore} {b : Block} {x y : Address} (hx : s.LastMet b x)
    (hy : s.LastMet b y) : x = y := by
  rcases hx with ⟨id, c, hc, rfl, hcb, hlastc⟩
  rcases hy with ⟨id', d, hd, rfl, hdb, hlastd⟩
  have hseg : ∀ {c : Block}, c.Meets b → c.start.segment = b.start.segment := by
    rintro c ⟨a, ha, hb⟩
    exact (Block.contains_iff.mp ha).1.symm.trans (Block.contains_iff.mp hb).1
  refine Address.eq_of_offset_eq ((hseg hcb).trans (hseg hdb).symm) ?_
  have hle := hlastd id c hc hcb
  have hge := hlastc id' d hd hdb
  omega

/-- A cut covers the addresses that were covered. -/
theorem covers_cut {s : BlockStore} {whole : Block} {a mid : Address} {id : Nat}
    (hget : s.get? id = some whole) (hin : whole.contains mid) (hne : whole.start ≠ mid) :
    (s.cut id whole mid).Covers a ↔ s.Covers a := by
  constructor
  · rintro ⟨k, c, hc, ha⟩
    rcases contains_of_get?_cut hget hin hne hc ha with ⟨k', c', hc', ha', -⟩
    exact ⟨k', c', hc', ha'⟩
  · rintro ⟨k, c, hc, ha⟩
    rcases exists_contains_cut hget hin hne hc ha with ⟨k', c', hc', ha', -⟩
    exact ⟨k', c', hc', ha'⟩

namespace WellFormed

variable {s : BlockStore} {b d whole : Block} {a mid : Address} {id : Nat}

/-- The one block that is looked at is the last that the new one meets, if it is met at all. -/
theorem lastMet_of_lastBeforeStop? (wf : s.WellFormed) (hpos : 0 < b.length.toInt)
    (hend : b.start.offset.toInt + b.length.toInt < 0x80000000)
    (hlast : s.lastBeforeStop? b = some d) (hover : b.start.offset.toInt < d.stopOffset) :
    s.LastMet b d.start := by
  rcases wf.lastBeforeStop?_eq_some hpos hend hlast with ⟨⟨id, hget⟩, hseg, hlt, hmax⟩
  refine ⟨id, d, hget, rfl, (Block.meets_iff (wf.positive hget) hpos).mpr ⟨hseg, hlt, hover⟩, ?_⟩
  intro id' c hc hmeets
  -- Whatever the new block meets starts before its end.
  rcases (Block.meets_iff (wf.positive hc) hpos).mp hmeets with ⟨hsegc, hltc, -⟩
  exact hmax hc hsegc hltc

/-- A block is refused because it has no bytes, or because it meets another one, or it is taken. -/
theorem add_outcome (wf : s.WellFormed)
    (hend : b.start.offset.toInt + b.length.toInt < 0x80000000) :
    (b.length.toInt ≤ 0 ∧ s.add b = .error (.emptyRange b.start b.stop))
      ∨ (0 < b.length.toInt ∧ ∃ x, s.LastMet b x ∧ s.add b = .error (.blockOverlap x))
      ∨ (0 < b.length.toInt ∧ (∀ id c, s.get? id = some c → ¬ c.Meets b)
        ∧ s.add b = .ok (s.push b, s.size)) := by
  by_cases hpos : 0 < b.length.toInt
  · cases hrefusal : s.refusal? b with
    | some e =>
        rcases (refusal?_eq_some_iff hpos).mp hrefusal with ⟨d, hlast, hover, rfl⟩
        exact Or.inr (Or.inl ⟨hpos, d.start, wf.lastMet_of_lastBeforeStop? hpos hend hlast hover,
          add_eq_error_iff.mpr hrefusal⟩)
    | none =>
        refine Or.inr (Or.inr ⟨hpos, ?_, by simp only [add, hrefusal]⟩)
        -- A block that is not refused meets none.
        rintro id c hget ⟨a, hc, hb⟩
        exact wf.disjoint_of_refusal?_eq_none hend hrefusal hget hc hb
  · have hle := Int.not_lt.mp hpos
    exact Or.inl ⟨hle, add_eq_error_iff.mpr (refusal?_of_length_le hle)⟩

/-- What is found in a store with one more block. -/
theorem find?_push (wf : s.WellFormed) (wf' : (s.push b).WellFormed) :
    (s.push b).find? a = if b.contains a then some s.size else s.find? a := by
  by_cases hb : b.contains a
  · rw [if_pos hb]
    exact wf'.find?_eq_some_iff.mpr ⟨b, get?_push_self, hb⟩
  · rw [if_neg hb]
    -- Outside of the new block the answer comes from one of the others.
    refine Option.ext fun k => ?_
    rw [wf'.find?_eq_some_iff, wf.find?_eq_some_iff]
    constructor
    · rintro ⟨c, hget, hc⟩
      rcases get?_push_cases hget with ⟨-, rfl⟩ | hold
      · exact absurd hc hb
      · exact ⟨c, hold, hc⟩
    · rintro ⟨c, hget, hc⟩
      exact ⟨c, get?_push_of_get? hget, hc⟩

/-- What is found in a store in which a block is cut. -/
theorem find?_cut (wf : s.WellFormed) (hget : s.get? id = some whole) (hin : whole.contains mid)
    (hne : whole.start ≠ mid) : (s.cut id whole mid).find? a
      = if (whole.tailFrom mid).contains a then some s.size else s.find? a := by
  have wf' := wf.cut hget hin hne
  by_cases htail : (whole.tailFrom mid).contains a
  · rw [if_pos htail]
    exact wf'.find?_eq_some_iff.mpr ⟨_, get?_cut_tail hget, htail⟩
  · rw [if_neg htail]
    refine Option.ext fun k => ?_
    rw [wf'.find?_eq_some_iff, wf.find?_eq_some_iff]
    constructor
    · rintro ⟨c, hc, ha⟩
      rcases get?_cut_cases hget hc with ⟨-, rfl⟩ | ⟨rfl, rfl⟩ | ⟨-, -, hold⟩
      · exact absurd ha htail
      · exact ⟨whole, hget, ((Block.contains_headBefore hin hne).mp ha).1⟩
      · exact ⟨c, hold, ha⟩
    · rintro ⟨c, hc, ha⟩
      by_cases hk : k = id
      · -- What the whole block covers and its tail does not lies in the head.
        rw [hk, hget, Option.some.injEq] at hc
        subst hc hk
        rw [Block.contains_tailFrom hin hne, not_and] at htail
        have hbefore := htail ha
        exact ⟨_, get?_cut_head hget, (Block.contains_headBefore hin hne).mpr ⟨ha, by omega⟩⟩
      · exact ⟨c, get?_cut_other hget hk hc, ha⟩

/-- What a block that is taken changes. -/
theorem push_queries (wf : s.WellFormed) (wf' : (s.push b).WellFormed) :
    (s.push b).size = s.size + 1
      ∧ (∀ j, (s.push b).get? j = if j = s.size then some b else s.get? j)
      ∧ (∀ a, (s.push b).find? a = if b.contains a then some s.size else s.find? a)
      ∧ (∀ a, (s.push b).startingAt? a = if a = b.start then some s.size else s.startingAt? a)
      ∧ ∀ p, p ∈ (s.push b).inOrder ↔ p = (s.size, b) ∨ p ∈ s.inOrder := by
  refine ⟨Array.size_push _, get?_push, fun a => wf.find?_push wf',
    fun a => startingAt?_insert _ _ _, ?_⟩
  rintro ⟨k, c⟩
  rw [wf'.mem_inOrder_iff, wf.mem_inOrder_iff, Prod.mk.injEq]
  constructor
  · exact get?_push_cases
  · rintro (⟨rfl, rfl⟩ | hold)
    · exact get?_push_self
    · exact get?_push_of_get? hold

/-- Each of the three outcomes rules the other two out. -/
theorem addsExactly (wf : s.WellFormed)
    (hend : b.start.offset.toInt + b.length.toInt < 0x80000000) : s.AddsExactly b := by
  rcases wf.add_outcome hend with ⟨hle, h⟩ | ⟨hpos, x, hx, h⟩ | ⟨hpos, hfree, h⟩
  · have hnot : ¬ 0 < b.length.toInt := by omega
    refine ⟨?_, ?_, ?_, ?_, ?_⟩ <;> simp [h, hle, hnot]
  · have hnot : ¬ b.length.toInt ≤ 0 := by omega
    have hmet : ∃ id c, s.get? id = some c ∧ c.Meets b := by
      rcases hx with ⟨id, c, hget, -, hmeets, -⟩
      exact ⟨id, c, hget, hmeets⟩
    refine ⟨by simp [h, hnot], by simp [h, hpos, hmet], fun y => ?_, by simp [h], by simp [h]⟩
    -- There is no other last block.
    rw [h, Except.error.injEq, Fault.blockOverlap.injEq]
    constructor
    · rintro rfl
      exact ⟨hpos, hx⟩
    · rintro ⟨-, hy⟩
      exact hx.unique hy
  · -- Nothing is met, so nothing is the last that is met.
    have hnot : ¬ b.length.toInt ≤ 0 := by omega
    have hnone : ∀ y, ¬ s.LastMet b y := by
      rintro y ⟨id, c, hget, -, hmeets, -⟩
      exact hfree id c hget hmeets
    have wf' : (s.push b).WellFormed :=
      wf.push hpos hend fun hget hc hb => hfree _ _ hget ⟨_, hc, hb⟩
    refine ⟨by simp [h, hnot], ?_, fun y => by simp [h, hnone y], by simp [h], ?_⟩
    · simp only [h, reduceCtorEq, exists_false, false_iff, not_and, not_exists]
      exact fun _ => hfree
    · intro s' id hadd
      rw [h, Except.ok.injEq, Prod.mk.injEq] at hadd
      rcases hadd with ⟨rfl, rfl⟩
      exact ⟨rfl, wf.push_queries wf'⟩

/-- A cut succeeds behind the start of a block, and then it gives the two parts. -/
theorem splitsExactly (wf : s.WellFormed) : s.SplitsExactly a where
  refused_iff := by
    constructor
    · rintro h ⟨id, whole, hget, hin, hlt⟩
      rw [wf.split_eq_ok hget hin ((Block.start_ne_iff_lt hin).mpr hlt)] at h
      cases h
    · intro h
      cases hsplit : s.split a with
      | error e => rw [split_eq_error hsplit]
      | ok r =>
          rcases r with ⟨s', id, n⟩
          rcases wf.split_eq_ok_iff.mp hsplit with ⟨whole, hget, hin, hne, -, -⟩
          exact absurd ⟨id, whole, hget, hin, (Block.start_ne_iff_lt hin).mp hne⟩ h
  fault := fun _ => split_eq_error
  parted := by
    intro s' id n h
    rcases wf.split_eq_ok_iff.mp h with ⟨whole, hget, hin, hne, rfl, rfl⟩
    have hsize : (s.cut id whole a).size = s.size + 1 := by
      rw [size, size, BlockStore.cut, Array.size_push, Array.size_setIfInBounds]
    rcases Block.stopOffset_parts hin hne with ⟨hfront, hback⟩
    refine ⟨whole, whole.headBefore a, whole.tailFrom a, hget, hin,
      (Block.start_ne_iff_lt hin).mp hne, rfl, hsize, rfl, hfront, rfl, rfl, hback, rfl,
      get?_cut (lt_size_of_get? hget), fun x => wf.find?_cut hget hin hne,
      fun x => startingAt?_insert _ _ _, ?_, fun x => covers_cut hget hin hne⟩
    -- Blocks are listed as they are numbered, so the list changes as the numbers do.
    rintro ⟨k, c⟩
    rw [(wf.cut hget hin hne).mem_inOrder_iff, wf.mem_inOrder_iff, Prod.mk.injEq, Prod.mk.injEq]
    constructor
    · intro hc
      rcases get?_cut_cases hget hc with htail | hhead | ⟨-, hother, hold⟩
      · exact Or.inl htail
      · exact Or.inr (Or.inl hhead)
      · exact Or.inr (Or.inr ⟨hother, hold⟩)
    · rintro (⟨rfl, rfl⟩ | ⟨rfl, rfl⟩ | ⟨hother, hold⟩)
      · exact get?_cut_tail hget
      · exact get?_cut_head hget
      · exact get?_cut_other hget hother hold

end WellFormed

/-- After every history both updates do what they should, and one that fails changes nothing. -/
theorem ofHistory_updates (updates : List Update)
    (hend : ∀ b, .add b ∈ updates → b.start.offset.toInt + b.length.toInt < 0x80000000) :
    (∀ b, b.start.offset.toInt + b.length.toInt < 0x80000000 → (ofHistory updates).AddsExactly b)
      ∧ (∀ a, (ofHistory updates).SplitsExactly a)
      ∧ ∀ u, (ofHistory updates).Refuses u → (ofHistory updates).after u = ofHistory updates := by
  have wf := wellFormed_ofHistory hend
  exact ⟨fun b hb => wf.addsExactly hb, fun a => wf.splitsExactly, fun u => after_of_refuses⟩

/-- Reaches into two blocks that touch. -/
def acrossTwo : Block := ⟨⟨0, 0x18⟩, 0x18, .jump⟩

/-- A block that reaches into two others is refused because of the later one, and a cut inside of a
    block is not refused. -/
theorem mixed_updates :
    (∀ b, .add b ∈ mixed → b.start.offset.toInt + b.length.toInt < 0x80000000)
      ∧ (ofHistory mixed).LastMet acrossTwo ⟨0, 0x20⟩
      ∧ (ofHistory mixed).after (.add acrossTwo) = ofHistory mixed
      ∧ ¬ (ofHistory mixed).split ⟨0, 0x24⟩ = .error (.splitOutsideBlock ⟨0, 0x24⟩) := by
  have hend : ∀ b, .add b ∈ mixed → b.start.offset.toInt + b.length.toInt < 0x80000000 := by
    simp [mixed]
  rcases ofHistory_updates mixed hend with ⟨hadds, hsplits, hrefused⟩
  have hadd : (ofHistory mixed).add acrossTwo = .error (.blockOverlap ⟨0, 0x20⟩) :=
    add_eq_error_iff.mpr (by decide)
  refine ⟨hend, ?_, hrefused (.add acrossTwo) ⟨_, hadd⟩, ?_⟩
  · exact (((hadds acrossTwo (by decide)).overlap_iff _).mp hadd).2
  · rw [(hsplits ⟨0, 0x24⟩).refused_iff, Classical.not_not]
    exact ⟨0, ⟨⟨0, 0x20⟩, 8, .ret⟩, by decide, by decide, by decide⟩

end BlockStore

end Disasm86
