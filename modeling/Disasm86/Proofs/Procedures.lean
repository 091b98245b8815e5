import Disasm86.Graph.Procedure
import Disasm86.Proofs.FlowEdges
import Disasm86.Proofs.Partition

/-!
# Procedures and What They Reach

A procedure has the blocks that control can reach from its entry, and there is a procedure
wherever a call or an entry point leads to the start of a block.

The search keeps the blocks that have not been seen, and a block that comes up a second time
is passed over. What makes the outcome closed under edges is therefore a statement about the
whole search and not about one of its turns: a successor that is passed over now was put in
at an earlier turn. `searchBlocks_closed` carries that through the recursion, for any state
that a search can be in.

Detecting procedures raises diagnostics on the way. The table does not depend on them, and
`enter` is what one reference does to the table alone. A table is `Derived` if it is what
detection leaves behind so far: its index is right, and every procedure has the blocks that
its entry block reaches.

## Main definitions

* `ProcedureTable.procedureAt`: The procedure that is made at an entry point.
* `ProcedureTable.enter`: What one reference does to the table.
* `ProcedureTable.Derived`: A table made of such procedures, with the right index.

## Theorems

* `searchBlocks_closed`: The outcome of a search is closed under successors.
* `searchBlocks_sound`: A search finds nothing that cannot be reached.
* `mem_reachableFrom_iff`, `mem_reachableFrom_build_iff`: The blocks of a procedure are those
  that edges lead to.
* `ProcedureTable.mem_owners_iff`: The owners of a block are the procedures that have it.
* `ProcedureTable.detect_table`: Detection enters the references one by one.
* `ProcedureTable.derived_detect`: The table of a detection is derived.
* `ProcedureTable.exists_procedure`: There is a procedure at the target of each call.
-/

namespace Disasm86

section Search

theorem mem_insert_nat {t : Std.TreeSet Nat} {a b : Nat} : a ∈ t.insert b ↔ a = b ∨ a ∈ t := by
  rw [Std.TreeSet.mem_insert, Std.LawfulEqCmp.compare_eq_iff_eq, eq_comm]

theorem mem_erase_nat {t : Std.TreeSet Nat} {a b : Nat} : a ∈ t.erase b ↔ a ≠ b ∧ a ∈ t := by
  rw [Std.TreeSet.mem_erase, ne_eq, Std.LawfulEqCmp.compare_eq_iff_eq, ne_comm]

/-- A search keeps what it has seen, takes what it is given, and goes on from all it takes. -/
theorem searchBlocks_closed (successors : Nat → List Nat) (unseen seen : Std.TreeSet Nat)
    (stack : List Nat) :
    (∀ x ∈ seen, x ∈ searchBlocks successors unseen seen stack)
      ∧ (∀ x ∈ stack, x ∈ unseen → x ∈ searchBlocks successors unseen seen stack)
      ∧ ∀ x ∈ searchBlocks successors unseen seen stack, x ∉ seen →
        ∀ y ∈ successors x, y ∈ unseen → y ∈ searchBlocks successors unseen seen stack := by
  -- The induction is that of the search: no stack left, a block that is new, and one that is not.
  fun_induction searchBlocks successors unseen seen stack with
  | case1 unseen seen =>
      exact ⟨fun x hx => hx, fun x hx => (by cases hx), fun x hx hnot => absurd hx hnot⟩
  | case2 unseen seen b stack hb ih =>
      rcases ih with ⟨hseen, hstack, hclosed⟩
      -- The block has been seen from now on, so it is in the outcome.
      have hmem := hseen b (mem_insert_nat.mpr (Or.inl rfl))
      refine ⟨fun x hx => hseen x (mem_insert_nat.mpr (Or.inr hx)), ?_, ?_⟩
      · intro x hx hunseen
        by_cases hxb : x = b
        · rw [hxb]
          exact hmem
        · have hx' := (List.mem_cons.mp hx).resolve_left hxb
          exact hstack x (List.mem_append_right _ hx') (mem_erase_nat.mpr ⟨hxb, hunseen⟩)
      · intro x hx hnot y hy hunseen
        by_cases hyb : y = b
        · rw [hyb]
          exact hmem
        · have hy' := mem_erase_nat.mpr ⟨hyb, hunseen⟩
          by_cases hxb : x = b
          · -- Its own successors have just been put onto the stack.
            rw [hxb] at hy
            exact hstack y (List.mem_append_left _ hy) hy'
          · refine hclosed x hx (fun hins => ?_) y hy hy'
            exact (mem_insert_nat.mp hins).elim hxb hnot
  | case3 unseen seen b stack hb ih =>
      -- The block has been seen already and is dropped from the stack.
      rcases ih with ⟨hseen, hstack, hclosed⟩
      refine ⟨hseen, fun x hx hunseen => ?_, hclosed⟩
      rcases List.mem_cons.mp hx with rfl | hx
      · exact absurd (Std.TreeSet.contains_iff_mem.mpr hunseen) hb
      · exact hstack x hx hunseen

/-- A search finds only what can be reached from its stack. -/
theorem searchBlocks_sound (successors : Nat → List Nat) (unseen seen : Std.TreeSet Nat)
    (stack : List Nat) :
    ∀ x ∈ searchBlocks successors unseen seen stack, x ∈ seen
      ∨ ∃ b ∈ stack, Relation.ReflTransGen (fun x y => y ∈ successors x) b x := by
  -- The induction follows the search: the stack is empty, or a block is taken from it, or it has
  -- been seen.
  fun_induction searchBlocks successors unseen seen stack with
  | case1 unseen seen => exact fun x hx => Or.inl hx
  | case2 unseen seen b stack hb ih =>
      intro x hx
      rcases ih x hx with hins | ⟨c, hc, hpath⟩
      · rcases mem_insert_nat.mp hins with rfl | hold
        · exact Or.inr ⟨x, List.mem_cons_self, .refl⟩
        · exact Or.inl hold
      · -- What a successor of the block reaches, the block reaches.
        rcases List.mem_append.mp hc with hc | hc
        · exact Or.inr ⟨b, List.mem_cons_self, .head hc hpath⟩
        · exact Or.inr ⟨c, List.mem_cons_of_mem b hc, hpath⟩
  | case3 unseen seen b stack hb ih =>
      intro x hx
      rcases ih x hx with hold | ⟨c, hc, hpath⟩
      · exact Or.inl hold
      · exact Or.inr ⟨c, List.mem_cons_of_mem b hc, hpath⟩

/-- The blocks that are found from a block are those that edges lead to, if all edges stay among the
    blocks that are searched. The search is closed under edges and takes nothing that it was not led
    to. -/
theorem mem_reachableFrom_iff {g : FlowGraph} {count entry x : Nat} (hindex : g.WellIndexed)
    (hedges : ∀ {b c}, g.Leads b c → c < count) (hentry : entry < count) :
    x ∈ reachableFrom g count entry ↔ Relation.ReflTransGen g.Leads entry x := by
  have hall : ∀ {y}, y < count → y ∈ Std.TreeSet.ofList (List.range count) := by
    intro y hy
    rw [Std.TreeSet.mem_ofList, List.contains_iff_mem, List.mem_range]
    exact hy
  rcases searchBlocks_closed g.successors (.ofList (List.range count)) ∅ [entry]
    with ⟨-, hstack, hclosed⟩
  constructor
  · intro hx
    rcases searchBlocks_sound _ _ _ _ x hx with hnone | ⟨b, hb, hpath⟩
    · exact absurd hnone Std.TreeSet.not_mem_emptyc
    · rw [List.mem_singleton.mp hb] at hpath
      exact Relation.ReflTransGen.mono (fun _ _ hc => hindex.mem_successors_iff.mp hc) _ _ hpath
  · intro hpath
    -- Along the path, each block is found because the one before it has been.
    induction hpath with
    | refl => exact hstack entry List.mem_cons_self (hall hentry)
    | tail _ hlead ih =>
        exact hclosed _ ih Std.TreeSet.not_mem_emptyc _ (hindex.mem_successors_iff.mpr hlead)
          (hall (hedges hlead))

/-- The same for the graph of a store, whose edges lead from block to block. -/
theorem mem_reachableFrom_build_iff {blocks : BlockStore} (wf : blocks.WellFormed)
    {log : ReferenceLog} {diagnostics : Diagnostics} {entry x : Nat}
    (hentry : entry < blocks.size) :
    x ∈ reachableFrom (FlowGraph.build blocks log diagnostics).1 blocks.size entry
      ↔ Relation.ReflTransGen (FlowGraph.build blocks log diagnostics).1.Leads entry x := by
  refine mem_reachableFrom_iff (FlowGraph.wellIndexed_build _ _ _) (fun hlead => ?_) hentry
  rcases FlowGraph.leads_build_iff.mp hlead with ⟨r, -, -, -, htarget⟩
  rcases wf.find?_eq_some_iff.mp htarget with ⟨b, hb, -⟩
  exact BlockStore.lt_size_of_get? hb

end Search

namespace ProcedureTable

section Entering

variable (blocks : BlockStore) (code : CodeIndex) (g : FlowGraph)

/-- The procedure that is made at an entry point. -/
def procedureAt (entry : Address) (entryBlock : Nat) : Procedure :=
  let members := reachableFrom g blocks.size entryBlock
  ⟨entry, entryBlock, members, returnsOf members.toList blocks code⟩

/-- What a reference does to the table: it makes the procedure at its target, if it calls
    for one that is not there. -/
def enter (t : ProcedureTable) (r : Reference) : ProcedureTable :=
  if isRoot r then
    match t.at? r.target, blocks.startingAt? r.target with
    | none, some entryBlock => t.push (procedureAt blocks code g r.target entryBlock)
    | _, _ => t
  else t

/-- The table alone, without the diagnostics that are collected on the way. -/
theorem addReference_table (state : ProcedureTable × Diagnostics) (r : Reference) :
    (addReference blocks code g state r).1 = state.1.enter blocks code g r := by
  unfold addReference enter findOrCreate
  by_cases hroot : isRoot r
  · simp only [if_pos hroot]
    -- Checking the call touches the diagnostics only.
    cases hat : state.1.at? r.target with
    | some id =>
        simp only []
        cases state.1.get? id with
        | none => rfl
        | some p =>
            simp only []
            split <;> rfl
    | none =>
        cases blocks.startingAt? r.target with
        | none => rfl
        | some entryBlock =>
            simp only [procedureAt]
            split <;> rfl
  · simp only [if_neg hroot]

/-- The table of a detection is made by entering the references one by one. -/
theorem detect_table (log : ReferenceLog) (diagnostics : Diagnostics) :
    (detect blocks log code g diagnostics).1
      = log.toList.foldl (enter blocks code g) empty := by
  have hfold : ∀ (refs : List Reference) (state : ProcedureTable × Diagnostics),
      (refs.foldl (addReference blocks code g) state).1
        = refs.foldl (enter blocks code g) state.1 := by
    intro refs
    induction refs with
    | nil => exact fun state => rfl
    | cons r rest ih =>
        intro state
        rw [List.foldl_cons, List.foldl_cons, ih, addReference_table]
  exact hfold log.toList (empty, diagnostics)

end Entering

/-- A table of procedures that were made at the starts of blocks, with an index that leads to each
    of them by its entry. What a procedure has is computed when it is made, from the blocks, the
    code and the graph, so it does not depend on the references that come later. -/
structure Derived (blocks : BlockStore) (code : CodeIndex) (g : FlowGraph) (t : ProcedureTable) :
    Prop where
  at?_iff : ∀ {a n}, t.at? a = some n ↔ ∃ p, t.get? n = some p ∧ p.entry = a
  made : ∀ {n p}, t.get? n = some p → ∃ entryBlock,
    blocks.startingAt? p.entry = some entryBlock ∧ p = procedureAt blocks code g p.entry entryBlock

section Detection

variable {blocks : BlockStore} {code : CodeIndex} {g : FlowGraph} {t : ProcedureTable}
  {p : Procedure} {r : Reference}

theorem get?_push (n : Nat) :
    (t.push p).get? n = if n = t.size then some p else t.get? n := by
  unfold get? push size
  rw [Array.getElem?_push]

/-- A new procedure is found by its entry. -/
theorem at?_push (a : Address) :
    (t.push p).at? a = if a = p.entry then some t.size else t.at? a :=
  getElem?_insert_ite t.byEntry p.entry a t.procedures.size

theorem lt_size_of_get? {n : Nat} (h : t.get? n = some p) : n < t.size := by
  rw [get?] at h
  exact (Array.getElem?_eq_some_iff.mp h).1

/-- The owners of a block are the procedures that have it. -/
theorem mem_owners_iff {n block : Nat} :
    n ∈ t.owners block ↔ ∃ p, t.get? n = some p ∧ p.blocks.contains block := by
  unfold owners get?
  simp only [List.mem_filterMap, Prod.exists, List.mem_zipIdx_iff_getElem?, Array.getElem?_toList,
    Option.ite_none_right_eq_some, Option.some.injEq]
  constructor
  · intro h
    rcases h with ⟨p, m, hget, hin, rfl⟩
    exact ⟨p, hget, hin⟩
  · intro h
    rcases h with ⟨p, hget, hin⟩
    exact ⟨p, n, hget, hin, rfl⟩

theorem derived_empty : Derived blocks code g empty where
  at?_iff := by simp [at?, get?, empty]
  made := by simp [get?, empty]

/-- A procedure at an entry that has none keeps the index right. -/
theorem Derived.push (h : Derived blocks code g t) (hnew : t.at? p.entry = none)
    (hmade : ∃ entryBlock, blocks.startingAt? p.entry = some entryBlock
      ∧ p = procedureAt blocks code g p.entry entryBlock) : Derived blocks code g (t.push p) where
  at?_iff := by
    intro a n
    rw [at?_push, get?_push]
    constructor
    · intro hat
      by_cases ha : a = p.entry
      · rw [if_pos ha, Option.some.injEq] at hat
        rw [if_pos hat.symm]
        exact ⟨p, rfl, ha.symm⟩
      · rw [if_neg ha] at hat
        rcases h.at?_iff.mp hat with ⟨q, hget, hentry⟩
        have hlt := lt_size_of_get? hget
        rw [if_neg (by omega)]
        exact ⟨q, hget, hentry⟩
    · intro hq
      rcases hq with ⟨q, hget, rfl⟩
      by_cases hn : n = t.size
      · rw [if_pos hn, Option.some.injEq] at hget
        rw [hget, if_pos rfl, hn]
      · rw [if_neg hn] at hget
        have hat := h.at?_iff.mpr ⟨q, hget, rfl⟩
        -- An older procedure has another entry, because the new one had none.
        by_cases hentry : q.entry = p.entry
        · rw [hentry, hnew] at hat
          cases hat
        · rw [if_neg hentry]
          exact hat
  made := by
    intro n q hget
    rw [get?_push] at hget
    by_cases hn : n = t.size
    · rw [if_pos hn, Option.some.injEq] at hget
      rw [← hget]
      exact hmade
    · rw [if_neg hn] at hget
      exact h.made hget

/-- Entering a reference keeps the table derived, loses no entry, and makes the procedure
    that the reference calls for. -/
theorem Derived.enter (h : Derived blocks code g t) (r : Reference) :
    Derived blocks code g (t.enter blocks code g r)
      ∧ (∀ {a}, (t.at? a).isSome → ((t.enter blocks code g r).at? a).isSome)
      ∧ (isRoot r → (blocks.startingAt? r.target).isSome →
        ((t.enter blocks code g r).at? r.target).isSome) := by
  unfold ProcedureTable.enter
  by_cases hroot : isRoot r
  · rw [if_pos hroot]
    -- Nothing happens if the target has a procedure, or if no block starts there.
    cases hat : t.at? r.target with
    | some n => exact ⟨h, fun ha => ha, fun _ _ => by rw [hat]; rfl⟩
    | none =>
        cases hstart : blocks.startingAt? r.target with
        | none => exact ⟨h, fun ha => ha, fun _ hsome => by cases hsome⟩
        | some entryBlock =>
            simp only []
            refine ⟨h.push hat ⟨entryBlock, hstart, rfl⟩, fun {a} ha => ?_, fun _ _ => ?_⟩
            · rw [at?_push]
              split
              · rfl
              · exact ha
            · have hentry : r.target = (procedureAt blocks code g r.target entryBlock).entry := rfl
              rw [at?_push, if_pos hentry]
              rfl
  · rw [if_neg hroot]
    exact ⟨h, fun ha => ha, fun hr => absurd hr hroot⟩

/-- Entering references one after the other keeps what each of them does. -/
theorem Derived.foldl_enter (h : Derived blocks code g t) (refs : List Reference) :
    Derived blocks code g (refs.foldl (ProcedureTable.enter blocks code g) t)
      ∧ (∀ {a}, (t.at? a).isSome →
        ((refs.foldl (ProcedureTable.enter blocks code g) t).at? a).isSome)
      ∧ ∀ r ∈ refs, isRoot r → (blocks.startingAt? r.target).isSome →
        ((refs.foldl (ProcedureTable.enter blocks code g) t).at? r.target).isSome := by
  induction refs generalizing t with
  | nil => exact ⟨h, fun ha => ha, fun r hr => (by cases hr)⟩
  | cons r rest ih =>
      rcases h.enter r with ⟨hderived, hkeeps, hmakes⟩
      rcases ih hderived with ⟨hall, hkept, hmade⟩
      refine ⟨hall, fun ha => hkept (hkeeps ha), fun x hx hroot hstart => ?_⟩
      rcases List.mem_cons.mp hx with rfl | hx
      · exact hkept (hmakes hroot hstart)
      · exact hmade x hx hroot hstart

variable {log : ReferenceLog} {diagnostics : Diagnostics}

/-- The table of a detection is derived, whatever has been recorded. -/
theorem derived_detect : Derived blocks code g (detect blocks log code g diagnostics).1 := by
  rw [detect_table]
  exact (derived_empty.foldl_enter log.toList).1

/-- There is a procedure wherever a call or an entry point leads to the start of a block, and
    it has the blocks that are reached from there. -/
theorem exists_procedure (code : CodeIndex) (g : FlowGraph) (diagnostics : Diagnostics)
    {entryBlock : Nat} (hr : r ∈ log.toList) (hroot : isRoot r)
    (hstart : blocks.startingAt? r.target = some entryBlock) :
    ∃ n, (detect blocks log code g diagnostics).1.get? n
      = some (procedureAt blocks code g r.target entryBlock) := by
  have hsome : ((detect blocks log code g diagnostics).1.at? r.target).isSome := by
    rw [detect_table]
    exact (derived_empty.foldl_enter log.toList).2.2 r hr hroot (by rw [hstart]; rfl)
  have hderived : Derived blocks code g (detect blocks log code g diagnostics).1 := derived_detect
  rcases Option.isSome_iff_exists.mp hsome with ⟨n, hn⟩
  -- The procedure at the entry was made at that entry, and a block is found by its start in one way
  -- only.
  rcases hderived.at?_iff.mp hn with ⟨p, hget, hentry⟩
  rcases hderived.made hget with ⟨id, hid, hp⟩
  rw [hentry, hstart, Option.some.injEq] at hid
  rw [hentry, ← hid] at hp
  exact ⟨n, by rw [hget, hp]⟩

end Detection

end ProcedureTable

end Disasm86
